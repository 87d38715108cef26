import RaftDB.StorageFiles

/-!
# Recovery leaves no holes

Indices are `uint64` in the source, and both checks of the recovery, in the replay of the log file
and in `NewNode`, add one to an index without looking at the result. The definitions here do the
same; they agree with the unbounded ones as long as no record has the largest index. The file may
hold any bytes, and the decoder of the payloads is arbitrary up to the type of the fields.
-/
namespace Storage

open Raft FramedStream

variable {D : Type}

/-- `NewNode` on the files of a directory; loading the log cuts its torn tail. -/
def newNodeUint64 (unmarshal : List UInt8 → Option RawRecord) (cfg : Config) (files : Files D) :
    Except NewNodeError (RaftNode D × Files D) :=
  let load := files.log.loadEntriesUint64 unmarshal
  let node := newNodeFrom cfg files.hardState files.snapshot (load.map Prod.fst) fun base =>
    recoverEntriesUint64 base ((base + 1) % UInt64.size)
  node.map fun rn => (rn, { files with log := (load.map Prod.snd).toOption.getD files.log })

/-- `json.Unmarshal` only fills a `uint64` with a number that fits. -/
def Uint64Fields (unmarshal : List UInt8 → Option RawRecord) : Prop :=
  ∀ payload r, unmarshal payload = some r →
    r.term < UInt64.size ∧ r.index < UInt64.size ∧ r.start < UInt64.size

section Replay

variable {unmarshal : List UInt8 → Option RawRecord} {es es' : List LogEntry} {r : WalRecord}
  {rs : List WalRecord}

/-- The next index is still a `uint64`. -/
def Increments (e : LogEntry) : Prop := e.index + 1 < UInt64.size

theorem nextIndexUint64_eq (h : ∀ e ∈ es, Increments e) : nextIndexUint64 es = nextIndex es := by
  rw [nextIndexUint64, nextIndex]
  cases hl : es.getLast? with
  | none => rfl
  | some e => exact Nat.mod_eq_of_lt (h e (List.mem_of_getLast? hl))

theorem replayRecordUint64_eq (h : ∀ e ∈ es, Increments e) :
    replayRecordUint64 es r = replayRecord es r := by
  cases r with
  | append e => rw [replayRecordUint64, replayRecord, nextIndexUint64_eq h]
  | truncate start => rfl
  | unknown type => rfl

/-- Behind the largest index any other is accepted. -/
example : replayRecordUint64 [⟨1, 2 ^ 64 - 1, []⟩] (.append ⟨1, 7, []⟩) =
    .ok [⟨1, 2 ^ 64 - 1, []⟩, ⟨1, 7, []⟩] := by decide

theorem foldlM_replayRecordUint64 (h : ∀ e ∈ es, Increments e)
    (hrs : ∀ e, .append e ∈ rs → Increments e) :
    rs.foldlM replayRecordUint64 es = replay es rs := by
  induction rs generalizing es with
  | nil => rfl
  | cons r rs ih =>
    rw [List.foldlM_cons, replayRecordUint64_eq h, replay]
    cases hr : replayRecord es r with
    | error err => rfl
    | ok mid =>
      apply ih
      · intro e he
        rcases mem_replayRecord hr he with he | rfl
        · exact h e he
        · exact hrs e List.mem_cons_self
      · intro e he
        exact hrs e (List.mem_cons_of_mem r he)

theorem loadEntriesUint64_eq (s : FileStore) :
    s.loadEntriesUint64 unmarshal =
      (((recordReader unmarshal).records s.wal).foldlM replayRecordUint64 []).map fun entries =>
        (entries, ⟨(recordReader unmarshal).whole s.wal,
          ((recordReader unmarshal).whole s.wal).length⟩) := by
  rw [FileStore.loadEntriesUint64, Reader.fold_eq]
  cases ((recordReader unmarshal).records s.wal).foldlM replayRecordUint64 [] with
  | error e => rfl
  | ok entries => simp [Except.map, Reader.take_whole]

theorem loadEntriesUint64_again {s t : FileStore} {entries : List LogEntry}
    (h : s.loadEntriesUint64 unmarshal = .ok (entries, t)) :
    t.loadEntriesUint64 unmarshal = .ok (entries, t) := by
  rw [loadEntriesUint64_eq] at h
  cases hfold : ((recordReader unmarshal).records s.wal).foldlM replayRecordUint64 [] with
  | error e =>
    rw [hfold] at h
    cases h
  | ok es =>
    rw [hfold] at h
    cases h
    have hwhole := Reader.whole_of_rest ((recordReader unmarshal).rest_whole s.wal)
    rw [loadEntriesUint64_eq]
    dsimp only
    rw [Reader.records_whole, hfold, hwhole]
    rfl

theorem index_lt_of_record (ht : Uint64Fields unmarshal) {bs : List UInt8} {e : LogEntry} {n : ℕ}
    (h : readRecord unmarshal bs = some (.append e, n)) : e.index < UInt64.size := by
  obtain ⟨payload, raw, hraw, hrecord⟩ := readRecord_decoded h
  rw [RawRecord.record] at hrecord
  split at hrecord
  · cases hrecord
    exact (ht payload raw hraw).2.1
  · split at hrecord <;> cases hrecord

/-- Fields of the type and no largest index: the additions are exact. -/
theorem increments_of_records (ht : Uint64Fields unmarshal) {bs : List UInt8}
    (hmax : ∀ e, .append e ∈ (recordReader unmarshal).records bs → e.index ≠ UInt64.size - 1) :
    ∀ e, .append e ∈ (recordReader unmarshal).records bs → Increments e := by
  intro e he
  have hlt : e.index < UInt64.size := by
    clear hmax
    induction bs using (recordReader unmarshal).induction with
    | hnone bs h => simp [Reader.records_of_none h] at he
    | hsome bs a n h ih =>
      rw [Reader.records_of_some h] at he
      rcases List.mem_cons.mp he with rfl | he
      · exact index_lt_of_record ht h
      · exact ih he
  have := hmax e he
  rw [Increments]
  omega

theorem loadEntriesUint64_replay {s : FileStore}
    (h : ∀ e, .append e ∈ (recordReader unmarshal).records s.wal → Increments e) {t : FileStore}
    (hload : s.loadEntriesUint64 unmarshal = .ok (es, t)) :
    replay [] ((recordReader unmarshal).records s.wal) = .ok es := by
  rw [loadEntriesUint64_eq, foldlM_replayRecordUint64 (by simp) h] at hload
  cases hr : replay [] ((recordReader unmarshal).records s.wal) with
  | error e =>
    rw [hr] at hload
    cases hload
  | ok x =>
    rw [hr] at hload
    cases hload
    rfl

end Replay

theorem recoverEntriesUint64_eq {base want : ℕ} {es : List LogEntry}
    (h : ∀ e ∈ es, Increments e) (hw : want < UInt64.size ∨ ∀ e ∈ es, e.index ≤ base) :
    recoverEntriesUint64 base (want % UInt64.size) es = recoverEntries base want es := by
  induction es generalizing want with
  | nil => rfl
  | cons e es ih =>
    have hes : ∀ x ∈ es, Increments x := fun x hx => h x (List.mem_cons_of_mem e hx)
    rw [recoverEntriesUint64, recoverEntries]
    by_cases hle : e.index ≤ base
    · rw [if_pos hle, if_pos hle]
      exact ih hes (hw.imp_right fun hall x hx => hall x (List.mem_cons_of_mem e hx))
    have hlt : want < UInt64.size := by
      rcases hw with hlt | hall
      · exact hlt
      · exact absurd (hall e List.mem_cons_self) hle
    rw [if_neg hle, if_neg hle, Nat.mod_eq_of_lt hlt]
    by_cases hwant : e.index = want
    · have hnext : want + 1 < UInt64.size := by
        rw [← hwant]
        exact h e List.mem_cons_self
      have hrest := ih hes (Or.inl hnext)
      rw [if_neg (not_not.mpr hwant), if_neg (not_not.mpr hwant)]
      cases hrec : recoverEntries base (want + 1) es with
      | error err => simp only [hrest.trans hrec]
      | ok rest => simp only [hrest.trans hrec]
    · rw [if_pos hwant, if_pos hwant]

theorem newNodeUint64_ok {unmarshal : List UInt8 → Option RawRecord} {cfg : Config}
    {files files' : Files D} {rn : RaftNode D}
    (h : newNodeUint64 unmarshal cfg files = .ok (rn, files')) :
    rn.log.sentinel = boundary files.snapshot ∧
      ∃ loaded, files.log.loadEntriesUint64 unmarshal = .ok (loaded, files'.log) ∧
        recoverEntriesUint64 rn.log.base ((rn.log.base + 1) % UInt64.size) loaded =
          .ok rn.log.entries := by
  cases hnode : newNodeFrom cfg files.hardState files.snapshot
      ((files.log.loadEntriesUint64 unmarshal).map Prod.fst) fun base =>
        recoverEntriesUint64 base ((base + 1) % UInt64.size) with
  | error err =>
    rw [newNodeUint64, hnode] at h
    cases h
  | ok node =>
    rw [newNodeUint64, hnode] at h
    cases h
    obtain ⟨_, loaded, entries, hmap, hrec, rfl⟩ := newNodeFrom_ok.mp hnode
    cases hload : files.log.loadEntriesUint64 unmarshal with
    | error err =>
      rw [hload] at hmap
      cases hmap
    | ok x =>
      rw [hload] at hmap
      cases hmap
      exact ⟨rfl, x.1, rfl, hrec⟩

/-- Any bytes in the log file and any snapshot, as long as no record has the largest index. -/
theorem recovery_leaves_no_holes (unmarshal : List UInt8 → Option RawRecord)
    (ht : Uint64Fields unmarshal) (s : FileStore)
    (hmax : ∀ e, .append e ∈ (recordReader unmarshal).records s.wal →
      e.index ≠ UInt64.size - 1) :
    ((∃ err, s.loadEntriesUint64 unmarshal = .error err) ∨
      ∃ entries t, s.loadEntriesUint64 unmarshal = .ok (entries, t) ∧ Chained entries ∧
        t.loadEntriesUint64 unmarshal = .ok (entries, t)) ∧
    ∀ (cfg : Config) (hs : Option HardState) (snap : Option (Snapshot D)),
      (boundary snap).index < UInt64.size →
      ∀ rn files, newNodeUint64 unmarshal cfg ⟨hs, s, snap⟩ = .ok (rn, files) →
        rn.log.sentinel = boundary snap ∧
        (∀ (k : ℕ) e, rn.log.slots[k]? = some e → e.index = rn.log.base + k) ∧
        ∃ loaded, s.loadEntriesUint64 unmarshal = .ok (loaded, files.log) ∧
          rn.log.entries = loaded.filter fun e => rn.log.base < e.index := by
  have hinc := increments_of_records ht hmax
  constructor
  · cases hload : s.loadEntriesUint64 unmarshal with
    | error err => exact Or.inl ⟨err, rfl⟩
    | ok x =>
      have hreplay := loadEntriesUint64_replay hinc hload
      exact Or.inr ⟨x.1, x.2, rfl, replay_chained .nil hreplay, loadEntriesUint64_again hload⟩
  · intro cfg hs snap hsnap rn files hnew
    obtain ⟨hsentinel, loaded, hload, hrec⟩ := newNodeUint64_ok hnew
    have hbase : rn.log.base < UInt64.size := by
      rw [RaftLog.base, hsentinel]
      exact hsnap
    have hloaded : ∀ e ∈ loaded, Increments e := by
      intro e he
      rcases mem_replay (loadEntriesUint64_replay hinc hload) he with h | h
      · cases h
      · exact hinc e h
    -- behind a boundary with the largest index everything is covered
    have hroom : rn.log.base + 1 < UInt64.size ∨ ∀ e ∈ loaded, e.index ≤ rn.log.base := by
      by_cases hlt : rn.log.base + 1 < UInt64.size
      · exact Or.inl hlt
      · right
        intro e he
        have := hloaded e he
        rw [Increments] at this
        omega
    rw [recoverEntriesUint64_eq hloaded hroom] at hrec
    obtain ⟨hnum, hfilter⟩ := recoverEntries_ok le_rfl hrec
    refine ⟨hsentinel, ?_, loaded, hload, hfilter⟩
    intro k e he
    cases k with
    | zero =>
      cases he
      rfl
    | succ k =>
      have := Consecutive.index_eq hnum he
      omega

section Decoder

def unmarshalUint64 (bs : List UInt8) : Option RawRecord :=
  (unmarshalMembers bs).filter fun r =>
    r.term < UInt64.size ∧ r.index < UInt64.size ∧ r.start < UInt64.size

theorem uint64Fields_unmarshalUint64 : Uint64Fields unmarshalUint64 := by
  intro payload r h
  simpa using (Option.filter_eq_some_iff.mp h).2

theorem inverts_unmarshalUint64 : Inverts unmarshalUint64 := by
  intro r hf
  rw [unmarshalUint64, inverts_unmarshalMembers r hf]
  cases r with
  | append e =>
    have hfields : e.term < UInt64.size ∧ e.index < UInt64.size := hf
    simp [WalRecord.raw, hfields, UInt64.size]
  | truncate start =>
    have hfields : start < UInt64.size := hf
    simp [WalRecord.raw, hfields, UInt64.size]
  | unknown type => exact hf.elim

theorem rejectsParts_unmarshalUint64 : RejectsParts unmarshalUint64 := by
  intro r hf k hk
  rw [unmarshalUint64, rejectsParts_unmarshalMembers r hf k hk]
  rfl

end Decoder

def coveredRecords : List WalRecord :=
  [.append ⟨1, 5, [97]⟩, .append ⟨2, 6, []⟩, .append ⟨2, 7, [98]⟩, .truncate 7, .append ⟨3, 7, []⟩]

theorem recovery_leaves_no_holes_covered :
    ∃ rn files, newNodeUint64 unmarshalUint64 ⟨"n1", ["n2", "n3"], 2, 0, 0, 0, 0⟩
        ⟨none, .newFileStore (stream recordBytes coveredRecords), some ⟨6, 2, ()⟩⟩ =
          .ok (rn, files) ∧
      rn.log = ⟨⟨2, 6, []⟩, [⟨3, 7, []⟩]⟩ ∧
      ∀ (k : ℕ) e, rn.log.slots[k]? = some e → e.index = 6 + k := by
  have hfits : ∀ r ∈ coveredRecords, r.Fits := by decide
  have hrecords : (recordReader unmarshalUint64).records (stream recordBytes coveredRecords) =
      coveredRecords := by
    rw [records_stream inverts_unmarshalUint64 rejectsParts_unmarshalUint64 hfits]
    decide +kernel
  have hmax : ∀ e, .append e ∈ (recordReader unmarshalUint64).records
      (FileStore.newFileStore (stream recordBytes coveredRecords)).wal →
        e.index ≠ UInt64.size - 1 := by
    intro e he
    rw [FileStore.newFileStore, hrecords] at he
    simp only [coveredRecords, List.mem_cons, WalRecord.append.injEq, reduceCtorEq,
      List.not_mem_nil, or_false, false_or] at he
    rcases he with rfl | rfl | rfl | rfl <;> decide
  have hload : ∃ t, (FileStore.newFileStore (stream recordBytes
      coveredRecords)).loadEntriesUint64 unmarshalUint64 =
        .ok ([⟨1, 5, [97]⟩, ⟨2, 6, []⟩, ⟨3, 7, []⟩], t) := by
    rw [loadEntriesUint64_eq, FileStore.newFileStore, hrecords]
    exact ⟨_, rfl⟩
  obtain ⟨t, ht⟩ := hload
  have hnew : ∃ rn files, newNodeUint64 unmarshalUint64 ⟨"n1", ["n2", "n3"], 2, 0, 0, 0, 0⟩
      ⟨none, .newFileStore (stream recordBytes coveredRecords), some ⟨6, 2, ()⟩⟩ =
        .ok (rn, files) ∧ rn.log = ⟨⟨2, 6, []⟩, [⟨3, 7, []⟩]⟩ := by
    rw [newNodeUint64]
    dsimp only
    rw [ht]
    exact ⟨_, _, rfl, rfl⟩
  obtain ⟨rn, files, hok, hlog⟩ := hnew
  obtain ⟨_, hslots, _⟩ := (recovery_leaves_no_holes unmarshalUint64 uint64Fields_unmarshalUint64
    _ hmax).2 _ none (some ⟨6, 2, ()⟩) (by decide) rn files hok
  refine ⟨rn, files, hok, hlog, ?_⟩
  rwa [hlog] at hslots ⊢

end Storage
