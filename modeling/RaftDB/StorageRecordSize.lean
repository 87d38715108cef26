import RaftDB.StorageTornTail

/-!
# What a store reads back

The write path accepts a command of any length, the read path only payloads of up to
`maxRecordSize` bytes. A longer record is taken for a torn tail, with everything behind it, also
what later calls append; that the length is converted to `uint32` does not help, since the
beginning of a payload is no JSON text.
-/
namespace Storage

open Raft ByteEncodings FramedStream

variable {unmarshal : List UInt8 → Option RawRecord} {s t : FileStore} {log es : List LogEntry}
  {r : WalRecord} {rs : List WalRecord}

/-- `json.Unmarshal` fails on what is only the beginning of a record. -/
def RejectsParts (unmarshal : List UInt8 → Option RawRecord) : Prop :=
  ∀ r : WalRecord, r.Fits → ∀ k < (marshal r.raw).length, unmarshal ((marshal r.raw).take k) = none

theorem rejectsParts_unmarshalMembers : RejectsParts unmarshalMembers :=
  fun _ h _ hk => unmarshalMembers_take h.written hk

theorem read_oversized (hp : RejectsParts unmarshal) (hf : r.Fits) (hl : ¬r.Short)
    (rest : List UInt8) : (recordReader unmarshal).read (recordBytes r ++ rest) = none := by
  change readRecord unmarshal (frame (marshal r.raw) ++ rest) = none
  rw [readRecord_frame]
  split
  · rfl
  · rename_i hsize
    have hlt : (marshal r.raw).length % 2 ^ 32 < (marshal r.raw).length := by
      rw [WalRecord.Short] at hl
      omega
    dsimp only
    rw [List.take_append_of_le_length hlt.le, hp r hf _ hlt]
    split <;> rfl

/-- Records are read up to the first one that is too long. -/
theorem records_stream (hu : Inverts unmarshal) (hp : RejectsParts unmarshal)
    (hf : ∀ r ∈ rs, r.Fits) :
    (recordReader unmarshal).records (stream recordBytes rs) = rs.takeWhile fun r => r.Short := by
  induction rs with
  | nil => simp
  | cons r rs ih =>
    have hr := hf r List.mem_cons_self
    rw [stream_cons]
    by_cases hs : r.Short
    · rw [Reader.records, (reads_record hu hr hs).scan, ih fun x hx => hf x (List.mem_cons_of_mem r hx)]
      simp [hs]
    · rw [Reader.records_of_none (read_oversized hp hr hs _)]
      simp [hs]

section Loads

theorem load_eq (s : FileStore)
    (step : List LogEntry → WalRecord → Except LoadError (List LogEntry)) :
    (((recordReader unmarshal).fold step [] 0 s.wal).map fun (entries, offset) =>
        (entries, (⟨s.wal.take offset, offset⟩ : FileStore))) =
      (((recordReader unmarshal).records s.wal).foldlM step []).map fun entries =>
        (entries, ⟨(recordReader unmarshal).whole s.wal,
          ((recordReader unmarshal).whole s.wal).length⟩) := by
  rw [Reader.fold_eq]
  cases ((recordReader unmarshal).records s.wal).foldlM step [] with
  | error e => rfl
  | ok entries => simp [Except.map, Reader.take_whole]

theorem FileStore.loadEntries_eq (s : FileStore) :
    s.loadEntries unmarshal =
      (Storage.loadEntries ((recordReader unmarshal).records s.wal)).map fun entries =>
        (entries, ⟨(recordReader unmarshal).whole s.wal,
          ((recordReader unmarshal).whole s.wal).length⟩) := by
  rw [FileStore.loadEntries, load_eq, Storage.loadEntries, replay_eq_foldlM]

theorem FileStore.loadEntriesUint64_ok :
    s.loadEntriesUint64 unmarshal = .ok (log, t) ↔
      ((recordReader unmarshal).records s.wal).foldlM replayRecordUint64 [] = .ok log ∧
        t = ⟨(recordReader unmarshal).whole s.wal,
          ((recordReader unmarshal).whole s.wal).length⟩ := by
  rw [FileStore.loadEntriesUint64, load_eq]
  cases ((recordReader unmarshal).records s.wal).foldlM replayRecordUint64 [] with
  | error e => simp [Except.map]
  | ok entries => simp [Except.map, eq_comm]

end Loads

section Usage

/-- A store in use: the handle stands at the end, and the file is readable to there or will never
be readable behind its last record. -/
structure FileStore.InUse (unmarshal : List UInt8 → Option RawRecord) (s : FileStore) : Prop where
  position : s.position = s.wal.length
  tail : (recordReader unmarshal).rest s.wal = [] ∨ (recordReader unmarshal).Sealed s.wal

/-- The new records that will be read back: none of them behind an unreadable one. -/
def FileStore.readable (unmarshal : List UInt8 → Option RawRecord) (s : FileStore)
    (rs : List WalRecord) : List WalRecord :=
  if (recordReader unmarshal).rest s.wal = [] then rs.takeWhile fun r => r.Short else []

theorem FileStore.InUse.records_append (h : s.InUse unmarshal) (hu : Inverts unmarshal)
    (hp : RejectsParts unmarshal) (hf : ∀ r ∈ rs, r.Fits) :
    (recordReader unmarshal).records (s.wal ++ stream recordBytes rs) =
      (recordReader unmarshal).records s.wal ++ s.readable unmarshal rs := by
  by_cases hrest : (recordReader unmarshal).rest s.wal = []
  · rw [Reader.records_append hrest, records_stream hu hp hf, readable, if_pos hrest]
  · have hsealed := h.tail.resolve_left hrest
    rw [Reader.records, hsealed.scan_append, readable, if_neg hrest, List.append_nil]

theorem inUse_empty (unmarshal : List UInt8 → Option RawRecord) :
    FileStore.InUse unmarshal ⟨[], 0⟩ :=
  ⟨rfl, Or.inl (Reader.rest_nil _)⟩

/-- A load makes a store usable, whatever it finds. -/
theorem inUse_of_load (h : s.loadEntriesUint64 unmarshal = .ok (es, t)) : t.InUse unmarshal := by
  rw [(FileStore.loadEntriesUint64_ok.mp h).2]
  exact ⟨rfl, Or.inl (Reader.rest_whole _ _)⟩

theorem FileStore.InUse.writeRecord (h : s.InUse unmarshal) (hu : Inverts unmarshal)
    (hp : RejectsParts unmarshal) (hf : r.Fits) : (s.writeRecord r).InUse unmarshal := by
  rw [writeRecord_at_end h.position]
  refine ⟨rfl, ?_⟩
  dsimp only
  rcases h.tail with hrest | hsealed
  · by_cases hs : r.Short
    · left
      have hscan := (reads_record hu hf hs).scan []
      rw [List.append_nil, Reader.rest_nil] at hscan
      rw [Reader.rest_append hrest, Reader.rest, hscan]
    · right
      have hnone := read_oversized hp hf hs
      have hbytes : (recordReader unmarshal).rest (recordBytes r) = recordBytes r := by
        have := hnone []
        rw [List.append_nil] at this
        exact Reader.rest_of_none this
      intro more
      rw [Reader.rest_append hrest, hbytes]
      exact hnone more
  · right
    intro more
    rw [Reader.rest, hsealed.scan_append, List.append_assoc]
    exact hsealed _

theorem FileStore.InUse.appendEntries (h : s.InUse unmarshal) (hu : Inverts unmarshal)
    (hp : RejectsParts unmarshal) (hf : ∀ e ∈ es, (WalRecord.append e).Fits) :
    (s.appendEntries es).InUse unmarshal := by
  induction es generalizing s with
  | nil => exact h
  | cons e es ih =>
    exact ih (h.writeRecord hu hp (hf e List.mem_cons_self))
      fun x hx => hf x (List.mem_cons_of_mem e hx)

theorem compact_eq (s : FileStore) (es : List LogEntry) :
    s.compact es = FileStore.appendEntries ⟨[], 0⟩ es := by
  rw [appendEntries_at_end rfl]
  rfl

theorem inUse_compact (s : FileStore) (hu : Inverts unmarshal) (hp : RejectsParts unmarshal)
    (hf : ∀ e ∈ es, (WalRecord.append e).Fits) : (s.compact es).InUse unmarshal := by
  rw [compact_eq]
  exact (inUse_empty unmarshal).appendEntries hu hp hf

def StoreCall.Fits : StoreCall → Prop
  | .appendEntries entries => ∀ e ∈ entries, (WalRecord.append e).Fits
  | .truncateSuffix start => (WalRecord.truncate start).Fits
  | .compact entries => ∀ e ∈ entries, (WalRecord.append e).Fits

theorem FileStore.InUse.run (h : s.InUse unmarshal) (hu : Inverts unmarshal)
    (hp : RejectsParts unmarshal) {calls : List StoreCall} (hc : ∀ c ∈ calls, c.Fits) :
    (s.run calls).InUse unmarshal := by
  induction calls generalizing s with
  | nil => exact h
  | cons c cs ih =>
    have hone : (s.call c).InUse unmarshal := by
      have hfits := hc c List.mem_cons_self
      cases c with
      | appendEntries entries => exact h.appendEntries hu hp hfits
      | truncateSuffix start => exact h.writeRecord hu hp hfits
      | compact entries => exact inUse_compact s hu hp hfits
    exact ih hone fun x hx => hc x (List.mem_cons_of_mem c hx)

/-- A store that was opened on some file, loaded, and then used. -/
def FileStore.Reached (unmarshal : List UInt8 → Option RawRecord) (s : FileStore) : Prop :=
  ∃ file log t calls, (newFileStore file).loadEntriesUint64 unmarshal = .ok (log, t) ∧
    (∀ call ∈ calls, call.Fits) ∧ s = t.run calls

theorem FileStore.Reached.inUse (h : s.Reached unmarshal) (hu : Inverts unmarshal)
    (hp : RejectsParts unmarshal) : s.InUse unmarshal := by
  obtain ⟨file, log, t, calls, hload, hfits, rfl⟩ := h
  exact (inUse_of_load hload).run hu hp hfits

end Usage

section ReadBack

theorem takeWhile_short_iff :
    (es.takeWhile fun e => (WalRecord.append e).Short) = es ↔
      ∀ e ∈ es, (WalRecord.append e).Short := by
  simp [List.takeWhile_eq_self_iff]

theorem foldlM_appends (hf : ∀ e ∈ es, (WalRecord.append e).Fits)
    (hc : Chained (log.getLast?.toList ++ es)) :
    (es.map WalRecord.append).foldlM replayRecordUint64 log = .ok (log ++ es) := by
  induction es generalizing log with
  | nil => simp [pure, Except.pure]
  | cons e es ih =>
    have hlt : e.index < UInt64.size := (hf e List.mem_cons_self).2
    have hnext : nextIndex log = 0 ∨ nextIndex log = e.index := by
      rw [nextIndex]
      cases hl : log.getLast? with
      | none => exact Or.inl rfl
      | some x =>
        rw [hl] at hc
        exact Or.inr (List.isChain_cons_cons.mp hc).1.symm
    have hone : replayRecordUint64 log (.append e) = .ok (log ++ [e]) := by
      refine replayRecordUint64_ok (by rintro _ ⟨⟩; exact hlt) ?_
      rw [replayRecord, if_neg (by omega)]
    have hrest : Chained ((log ++ [e]).getLast?.toList ++ es) := by
      rw [List.getLast?_concat]
      exact hc.right_of_append
    rw [List.map_cons, List.foldlM_cons, hone]
    refine (ih (fun x hx => hf x (List.mem_cons_of_mem e hx)) hrest).trans ?_
    rw [List.append_assoc]
    rfl

theorem FileStore.InUse.kept_iff (h : s.InUse unmarshal)
    (hload : s.loadEntriesUint64 unmarshal = .ok (log, t)) :
    t = s ↔ (recordReader unmarshal).rest s.wal = [] := by
  rw [(FileStore.loadEntriesUint64_ok.mp hload).2]
  constructor
  · intro heq
    have hwhole : (recordReader unmarshal).whole s.wal = s.wal := congrArg FileStore.wal heq
    have hsplit := (recordReader unmarshal).whole_append_rest s.wal
    rw [hwhole] at hsplit
    exact List.append_right_eq_self.mp hsplit
  · intro hrest
    rw [Reader.whole_of_rest hrest, ← h.position]

/-- A load takes in the new entries up to the first one that is too long, and none behind a record
that cannot be read. -/
theorem FileStore.InUse.load_append (h : s.InUse unmarshal) (hu : Inverts unmarshal)
    (hp : RejectsParts unmarshal) (hload : s.loadEntriesUint64 unmarshal = .ok (log, t))
    (hf : ∀ e ∈ es, (WalRecord.append e).Fits) (hc : Chained (log.getLast?.toList ++ es)) :
    ∃ t', (s.appendEntries es).loadEntriesUint64 unmarshal =
      .ok (log ++ if (recordReader unmarshal).rest s.wal = [] then
        es.takeWhile fun e => (WalRecord.append e).Short else [], t') := by
  generalize hnew : (if (recordReader unmarshal).rest s.wal = [] then
    es.takeWhile fun e => decide (WalRecord.append e).Short else []) = new
  have hpre : new <+: es := by
    rw [← hnew]
    split
    · exact List.takeWhile_prefix _
    · exact List.nil_prefix
  have hread : s.readable unmarshal (es.map .append) = new.map .append := by
    rw [readable, ← hnew]
    split
    · exact List.takeWhile_map
    · rfl
  have hfits : ∀ r ∈ es.map WalRecord.append, r.Fits := by simpa using hf
  have hchain : Chained (log.getLast?.toList ++ new) := by
    obtain ⟨more, rfl⟩ := hpre
    rw [← List.append_assoc] at hc
    exact hc.left_of_append
  refine ⟨_, loadEntriesUint64_ok.mpr ⟨?_, rfl⟩⟩
  rw [appendEntries_at_end h.position, h.records_append hu hp hfits, hread, List.foldlM_append,
    (loadEntriesUint64_ok.mp hload).1]
  exact foldlM_appends (fun e he => hf e (hpre.subset he)) hchain

theorem load_empty (unmarshal : List UInt8 → Option RawRecord) :
    FileStore.loadEntriesUint64 unmarshal ⟨[], 0⟩ = .ok ([], ⟨[], 0⟩) := by
  refine FileStore.loadEntriesUint64_ok.mpr ⟨?_, ?_⟩
  · rw [Reader.records_nil]
    rfl
  · rw [Reader.whole_of_rest (Reader.rest_nil _)]
    rfl

theorem load_compact (s : FileStore) (hu : Inverts unmarshal) (hp : RejectsParts unmarshal)
    (hf : ∀ e ∈ es, (WalRecord.append e).Fits) (hc : Chained es) :
    ∃ t, (s.compact es).loadEntriesUint64 unmarshal =
      .ok (es.takeWhile fun e => (WalRecord.append e).Short, t) := by
  obtain ⟨t, ht⟩ := (inUse_empty unmarshal).load_append hu hp (load_empty unmarshal) hf hc
  rw [if_pos (Reader.rest_nil _)] at ht
  exact ⟨t, by rw [compact_eq]; exact ht⟩

theorem exists_load_iff {x : Except LoadError (List LogEntry × FileStore)}
    {loaded expected : List LogEntry} (h : ∃ t, x = .ok (loaded, t)) :
    (∃ t, x = .ok (expected, t)) ↔ loaded = expected := by
  obtain ⟨t, rfl⟩ := h
  constructor
  · rintro ⟨t', ht⟩
    cases ht
    rfl
  · rintro rfl
    exact ⟨t, rfl⟩

/-- What is appended is read back exactly if no record is too long and a load would have cut
nothing from the file before; what a compaction keeps, exactly if no record is too long. -/
theorem read_back_iff_short (unmarshal : List UInt8 → Option RawRecord) (hu : Inverts unmarshal)
    (hp : RejectsParts unmarshal) {s kept : FileStore} {log : List LogEntry}
    (h : s.Reached unmarshal) (hload : s.loadEntriesUint64 unmarshal = .ok (log, kept))
    {es : List LogEntry} (hf : ∀ e ∈ es, (WalRecord.append e).Fits) :
    (Chained (log.getLast?.toList ++ es) →
      ((∃ t, (s.appendEntries es).loadEntriesUint64 unmarshal = .ok (log ++ es, t)) ↔
        es = [] ∨ kept = s ∧
          ∀ e ∈ es, (marshal (WalRecord.append e).raw).length ≤ maxRecordSize)) ∧
    (Chained es →
      ((∃ t, (s.compact es).loadEntriesUint64 unmarshal = .ok (es, t)) ↔
        ∀ e ∈ es, (marshal (WalRecord.append e).raw).length ≤ maxRecordSize)) := by
  have huse := h.inUse hu hp
  constructor
  · intro hc
    rw [exists_load_iff (huse.load_append hu hp hload hf hc), List.append_cancel_left_eq,
      huse.kept_iff hload]
    by_cases hrest : (recordReader unmarshal).rest s.wal = []
    · rw [if_pos hrest, takeWhile_short_iff]
      constructor
      · exact fun hshort => Or.inr ⟨hrest, hshort⟩
      · rintro (rfl | ⟨_, hshort⟩)
        · rintro e ⟨⟩
        · exact hshort
    · rw [if_neg hrest]
      constructor
      · exact fun hnil => Or.inl hnil.symm
      · rintro (rfl | ⟨hnil, _⟩)
        · rfl
        · exact absurd hnil hrest
  · intro hc
    rw [exists_load_iff (load_compact s hu hp hf hc)]
    exact takeWhile_short_iff

theorem reached_append (unmarshal : List UInt8 → Option RawRecord)
    (hf : ∀ e ∈ es, (WalRecord.append e).Fits) :
    ((FileStore.newFileStore []).appendEntries es).Reached unmarshal := by
  refine ⟨[], [], _, [.appendEntries es], load_empty _, fun call hcall => ?_, rfl⟩
  rw [List.mem_singleton.mp hcall]
  exact hf

theorem read_back_iff_short_small :
    ∃ s, FileStore.Reached unmarshalMembers s ∧
      s.loadEntriesUint64 unmarshalMembers = .ok ([⟨1, 1, [97]⟩], s) ∧
      (∃ t, (s.appendEntries [⟨1, 2, []⟩]).loadEntriesUint64 unmarshalMembers =
        .ok ([⟨1, 1, [97]⟩, ⟨1, 2, []⟩], t)) ∧
      ∃ t, (s.compact [⟨1, 2, []⟩]).loadEntriesUint64 unmarshalMembers =
        .ok ([⟨1, 2, []⟩], t) := by
  have hfirst : ∀ e ∈ [(⟨1, 1, [97]⟩ : LogEntry)], (WalRecord.append e).Fits := by decide
  have hload : ((FileStore.newFileStore []).appendEntries [⟨1, 1, [97]⟩]).loadEntriesUint64
      unmarshalMembers = .ok ([⟨1, 1, [97]⟩],
        (FileStore.newFileStore []).appendEntries [⟨1, 1, [97]⟩]) := by decide +kernel
  have hsmall : ∀ e ∈ [(⟨1, 2, []⟩ : LogEntry)], (WalRecord.append e).Fits := by decide
  have hshort : ∀ e ∈ [(⟨1, 2, []⟩ : LogEntry)],
      (marshal (WalRecord.append e).raw).length ≤ maxRecordSize := by decide +kernel
  obtain ⟨happend, hcompact⟩ := read_back_iff_short unmarshalMembers inverts_unmarshalMembers
    rejectsParts_unmarshalMembers (reached_append _ hfirst) hload hsmall
  exact ⟨_, reached_append _ hfirst, hload, (happend (by decide)).mpr (Or.inr ⟨rfl, hshort⟩),
    (hcompact (by decide)).mpr hshort⟩

/-- 48 MiB, which base64 turns into 64 MiB. -/
def oversizedEntry : LogEntry := ⟨1, 1, List.replicate (48 * 2 ^ 20) 0⟩

theorem oversizedEntry_not_short : ¬(WalRecord.append oversizedEntry).Short := by
  have hlen : oversizedEntry.command.length = 48 * 2 ^ 20 := List.length_replicate
  have hne : oversizedEntry.command ≠ [] := by
    intro hnil
    rw [hnil] at hlen
    exact absurd hlen (by decide)
  have hlt := length_marshal_append hne
  rw [hlen] at hlt
  have hmax : 4 * ((48 * 2 ^ 20 + 2) / 3) = maxRecordSize := by decide
  rw [hmax] at hlt
  exact not_le.mpr hlt

theorem load_oversized (hu : Inverts unmarshal) (hp : RejectsParts unmarshal) {e : LogEntry}
    (hf : ∀ x ∈ e :: es, (WalRecord.append x).Fits) (hl : ¬(WalRecord.append e).Short)
    (hc : Chained (e :: es)) : ∃ kept,
      ((FileStore.newFileStore []).appendEntries (e :: es)).loadEntriesUint64 unmarshal =
        .ok ([], kept) ∧
      kept ≠ (FileStore.newFileStore []).appendEntries (e :: es) ∧
      ∀ x : LogEntry, (WalRecord.append x).Fits → ∃ t,
        (((FileStore.newFileStore []).appendEntries (e :: es)).appendEntries
          [x]).loadEntriesUint64 unmarshal = .ok ([], t) := by
  have huse := (reached_append unmarshal hf).inUse hu hp
  obtain ⟨kept, hload⟩ := (inUse_empty unmarshal).load_append hu hp (load_empty unmarshal) hf hc
  rw [if_pos (Reader.rest_nil _), List.takeWhile_cons_of_neg (by simpa using hl)] at hload
  have hrest : (recordReader unmarshal).rest
      ((FileStore.newFileStore []).appendEntries (e :: es)).wal ≠ [] := by
    have hfirst := hf e List.mem_cons_self
    rw [appendEntries_at_end rfl, List.map_cons, stream_cons]
    dsimp only [FileStore.newFileStore]
    rw [List.nil_append, Reader.rest_of_none (read_oversized hp hfirst hl _)]
    intro hnil
    have hlen := congrArg List.length hnil
    rw [List.length_append, recordBytes, length_frame, List.length_nil] at hlen
    omega
  refine ⟨kept, hload, fun hkept => hrest ((huse.kept_iff hload).mp hkept), fun x hx => ?_⟩
  have hone : ∀ y ∈ [x], (WalRecord.append y).Fits := by simpa using hx
  obtain ⟨t, ht⟩ := huse.load_append hu hp hload hone (List.isChain_singleton x)
  rw [if_neg hrest] at ht
  exact ⟨t, ht⟩

/-- The batch is acknowledged, and nothing of it is read back, the small entry behind it included.
The same becomes of a small batch that follows later. -/
theorem oversized_entry_lost :
    ∃ s kept, FileStore.Reached unmarshalMembers s ∧
      s = (FileStore.newFileStore []).appendEntries [oversizedEntry, ⟨1, 2, [97]⟩] ∧
      s.loadEntriesUint64 unmarshalMembers = .ok ([], kept) ∧ kept ≠ s ∧
      (∃ t, (s.appendEntries [⟨1, 1, [98]⟩]).loadEntriesUint64 unmarshalMembers = .ok ([], t)) ∧
      ∃ t, (s.compact [oversizedEntry, ⟨1, 2, [97]⟩]).loadEntriesUint64 unmarshalMembers =
        .ok ([], t) := by
  have hchain : Chained [oversizedEntry, ⟨1, 2, [97]⟩] := List.isChain_pair.mpr rfl
  have hf : ∀ e ∈ [oversizedEntry, ⟨1, 2, [97]⟩], (WalRecord.append e).Fits := by
    intro e he
    simp only [List.mem_cons, List.not_mem_nil, or_false] at he
    rcases he with rfl | rfl
    · exact (by decide : (1 : ℕ) < 2 ^ 64 ∧ (1 : ℕ) < 2 ^ 64)
    · decide
  obtain ⟨kept, hload, hkept, hlater⟩ := load_oversized inverts_unmarshalMembers
    rejectsParts_unmarshalMembers hf oversizedEntry_not_short hchain
  have hcompact := load_compact
    ((FileStore.newFileStore []).appendEntries [oversizedEntry, ⟨1, 2, [97]⟩])
    inverts_unmarshalMembers rejectsParts_unmarshalMembers hf hchain
  rw [List.takeWhile_cons_of_neg (by simpa using oversizedEntry_not_short)] at hcompact
  exact ⟨_, kept, reached_append _ hf, rfl, hload, hkept, hlater _ (by decide), hcompact⟩

end ReadBack

end Storage
