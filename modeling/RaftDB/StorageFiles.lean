import RaftDB.StorageRecordSize

/-!
# The files of a node, byte by byte

The three files of a node's directory with the log as bytes. A crash falls between two writes or
inside a record of the log; the other two files are replaced as a whole. What recovery sees of the
log are the records that can be read: those from before the crash and some of the new ones, in
order, but nothing behind a record that cannot be read.
-/
namespace Storage

open Raft FramedStream

variable {D : Type}

structure Files (D : Type) where
  hardState : Option HardState
  log : FileStore
  snapshot : Option (Snapshot D)
  deriving DecidableEq, Repr

namespace Files

def write (f : Files D) : StoreWrite D → Files D
  | .saveHardState hs => { f with hardState := some hs }
  | .writeRecord r => { f with log := f.log.writeRecord r }
  | .saveSnapshot snap => { f with snapshot := some snap }
  | .compact entries => { f with log := f.log.compact entries }

def writeAll (f : Files D) (ws : List (StoreWrite D)) : Files D := ws.foldl write f

/-- A write that is interrupted: `n` bytes of a record, or nothing of a new file. -/
def tear (f : Files D) (n : ℕ) : StoreWrite D → Files D
  | .writeRecord r => { f with log := f.log.write ((recordBytes r).take n) }
  | _ => f

def crash (f : Files D) (ws : List (StoreWrite D)) (k n : ℕ) : Files D :=
  match ws[k]? with
  | none => f.writeAll ws
  | some w => (f.writeAll (ws.take k)).tear n w

/-- What `NewNode` gets to see: of the log file, the records that are read. -/
def disk (unmarshal : List UInt8 → Option RawRecord) (f : Files D) : Disk D :=
  ⟨f.hardState, (recordReader unmarshal).records f.log.wal, f.snapshot⟩

end Files

section Crashes

variable {unmarshal : List UInt8 → Option RawRecord} {s : FileStore} {rs : List WalRecord}
  {f : Files D} {ws : List (StoreWrite D)}

theorem records_stream_take (hu : Inverts unmarshal) (hp : RejectsParts unmarshal)
    (hf : ∀ r ∈ rs, r.Fits) (m : ℕ) :
    ∃ j, (recordReader unmarshal).records ((stream recordBytes rs).take m) =
      (rs.takeWhile fun r => r.Short).take j := by
  induction rs generalizing m with
  | nil => exact ⟨0, by simp⟩
  | cons r rs ih =>
    have hr := hf r List.mem_cons_self
    rw [stream_cons]
    by_cases hs : r.Short
    · have hreads := reads_record hu hr hs
      by_cases hm : (recordBytes r).length ≤ m
      · obtain ⟨j, hj⟩ := ih (fun x hx => hf x (List.mem_cons_of_mem r hx))
          (m - (recordBytes r).length)
        refine ⟨j + 1, ?_⟩
        rw [List.take_append, List.take_of_length_le hm, Reader.records, hreads.scan, hj]
        simp [hs]
      · refine ⟨0, ?_⟩
        rw [List.take_append_of_le_length (by omega),
          Reader.records_of_none (hreads.torn m (by omega))]
        rfl
    · refine ⟨0, ?_⟩
      rw [Reader.records_of_none (Reader.read_take (read_oversized hp hr hs _) m)]
      rfl

theorem FileStore.InUse.records_torn (h : s.InUse unmarshal) (hu : Inverts unmarshal)
    (hp : RejectsParts unmarshal) (hf : ∀ r ∈ rs, r.Fits) (m : ℕ) :
    ∃ j, (recordReader unmarshal).records (s.wal ++ (stream recordBytes rs).take m) =
      (recordReader unmarshal).records s.wal ++ (s.readable unmarshal rs).take j := by
  by_cases hrest : (recordReader unmarshal).rest s.wal = []
  · obtain ⟨j, hj⟩ := records_stream_take hu hp hf m
    exact ⟨j, by rw [Reader.records_append hrest, hj, readable, if_pos hrest]⟩
  · have hsealed := h.tail.resolve_left hrest
    exact ⟨0, by rw [Reader.records, hsealed.scan_append, List.take_zero, List.append_nil]⟩

theorem FileStore.readable_starts (unmarshal : List UInt8 → Option RawRecord) (s : FileStore)
    (rs : List WalRecord) : s.readable unmarshal rs <+: rs := by
  rw [readable]
  split
  · exact List.takeWhile_prefix _
  · exact List.nil_prefix

@[simp] theorem FileStore.readable_nil (s : FileStore) : s.readable unmarshal [] = [] :=
  List.prefix_nil.mp (readable_starts unmarshal s [])

theorem FileStore.readable_cons {r : WalRecord} (h : s.readable unmarshal (r :: rs) ≠ []) :
    ∃ tail, s.readable unmarshal (r :: rs) = r :: tail := by
  have hpre := readable_starts unmarshal s (r :: rs)
  obtain ⟨x, tail, hx⟩ := List.exists_cons_of_ne_nil h
  rw [hx] at hpre ⊢
  exact ⟨tail, by rw [(List.cons_prefix_cons.mp hpre).1]⟩

theorem FileStore.readable_take (unmarshal : List UInt8 → Option RawRecord) (s : FileStore)
    (rs : List WalRecord) (j : ℕ) : ∃ j', (s.readable unmarshal rs).take j = rs.take j' := by
  have hpre := List.prefix_iff_eq_take.mp (readable_starts unmarshal s rs)
  rw [hpre, List.take_take]
  exact ⟨_, rfl⟩

def StoreWrite.records : StoreWrite D → List WalRecord
  | .writeRecord r => [r]
  | _ => []

def StoreWrite.Appends : StoreWrite D → Prop
  | .saveHardState _ => True
  | .writeRecord r => r.Fits
  | _ => False

theorem write_at_end (h : s.position = s.wal.length) (buf : List UInt8) :
    s.write buf = ⟨s.wal ++ buf, (s.wal ++ buf).length⟩ := by
  simp [FileStore.write, h]

theorem Files.writeAll_log (h : f.log.position = f.log.wal.length)
    (hws : ∀ w ∈ ws, w.Appends) :
    (f.writeAll ws).log.wal = f.log.wal ++ stream recordBytes (ws.flatMap StoreWrite.records) ∧
      (f.writeAll ws).log.position = (f.writeAll ws).log.wal.length ∧
      (f.writeAll ws).snapshot = f.snapshot := by
  induction ws generalizing f with
  | nil => simp [writeAll, h]
  | cons w ws ih =>
    have hw := hws w List.mem_cons_self
    have hrest : ∀ x ∈ ws, x.Appends := fun x hx => hws x (List.mem_cons_of_mem w hx)
    cases w with
    | saveHardState hs => exact ih (f := f.write (.saveHardState hs)) h hrest
    | writeRecord r =>
      have hone : (f.write (.writeRecord r)).log = ⟨f.log.wal ++ recordBytes r, _⟩ :=
        writeRecord_at_end h r
      obtain ⟨hwal, hpos, hsnap⟩ := ih (f := f.write (.writeRecord r)) (by rw [hone]) hrest
      refine ⟨?_, hpos, hsnap⟩
      change ((f.write (.writeRecord r)).writeAll ws).log.wal = _
      rw [hwal, hone]
      simp [StoreWrite.records]
    | saveSnapshot snap => exact hw.elim
    | compact entries => exact hw.elim

theorem Files.crash_log (h : f.log.position = f.log.wal.length) (hws : ∀ w ∈ ws, w.Appends)
    (k n : ℕ) :
    (∃ m, (f.crash ws k n).log.wal =
      f.log.wal ++ (stream recordBytes (ws.flatMap StoreWrite.records)).take m) ∧
      (f.crash ws k n).snapshot = f.snapshot := by
  rw [crash]
  split
  · obtain ⟨hwal, _, hsnap⟩ := writeAll_log h hws
    exact ⟨⟨_, by rw [hwal, List.take_length]⟩, hsnap⟩
  · rename_i w hw
    obtain ⟨hwal, hpos, hsnap⟩ := writeAll_log h fun x hx => hws x (List.mem_of_mem_take hx)
    obtain ⟨hk, hget⟩ := List.getElem?_eq_some_iff.mp hw
    have hsplit : ws = ws.take k ++ w :: ws.drop (k + 1) := by
      rw [← hget, List.getElem_cons_drop, List.take_append_drop]
    have hstream : stream recordBytes (ws.flatMap StoreWrite.records) =
        stream recordBytes ((ws.take k).flatMap StoreWrite.records) ++
          (stream recordBytes w.records ++
            stream recordBytes ((ws.drop (k + 1)).flatMap StoreWrite.records)) := by
      nth_rewrite 1 [hsplit]
      simp
    cases w with
    | saveHardState hs =>
      refine ⟨⟨(stream recordBytes ((ws.take k).flatMap StoreWrite.records)).length, ?_⟩, hsnap⟩
      rw [hstream, List.take_left]
      exact hwal
    | writeRecord r =>
      refine ⟨⟨(stream recordBytes ((ws.take k).flatMap StoreWrite.records)).length +
        min n (recordBytes r).length, ?_⟩, hsnap⟩
      change ((f.writeAll (ws.take k)).log.write ((recordBytes r).take n)).wal = _
      rw [write_at_end hpos, hwal, hstream, List.take_length_add_append]
      simp [StoreWrite.records, List.take_append]
    | saveSnapshot snap => exact (hws _ (List.mem_of_getElem? hw)).elim
    | compact entries => exact (hws _ (List.mem_of_getElem? hw)).elim

theorem appends_fits (hws : ∀ w ∈ ws, w.Appends) :
    ∀ r ∈ ws.flatMap StoreWrite.records, r.Fits := by
  intro r hr
  obtain ⟨w, hw, hmem⟩ := List.mem_flatMap.mp hr
  cases w with
  | writeRecord x =>
    rw [List.mem_singleton.mp hmem]
    exact hws _ hw
  | saveHardState hs => cases hmem
  | saveSnapshot snap => cases hmem
  | compact entries => cases hmem

/-- Recovery sees the old records and some of the new ones, in order. -/
theorem FileStore.InUse.crash_disk (h : f.log.InUse unmarshal) (hu : Inverts unmarshal)
    (hp : RejectsParts unmarshal) (hws : ∀ w ∈ ws, w.Appends) (k n : ℕ) :
    (∃ j, ((f.crash ws k n).disk unmarshal).wal = (f.disk unmarshal).wal ++
      (f.log.readable unmarshal (ws.flatMap StoreWrite.records)).take j) ∧
      ((f.crash ws k n).disk unmarshal).snapshot = (f.disk unmarshal).snapshot := by
  obtain ⟨⟨m, hwal⟩, hsnap⟩ := Files.crash_log h.position hws k n
  obtain ⟨j, hj⟩ := h.records_torn hu hp (appends_fits hws) m
  refine ⟨⟨j, ?_⟩, hsnap⟩
  rw [Files.disk, hwal, hj]
  rfl

theorem FileStore.InUse.writeAll_disk (h : f.log.InUse unmarshal) (hu : Inverts unmarshal)
    (hp : RejectsParts unmarshal) (hws : ∀ w ∈ ws, w.Appends) :
    ((f.writeAll ws).disk unmarshal).wal = (f.disk unmarshal).wal ++
      f.log.readable unmarshal (ws.flatMap StoreWrite.records) := by
  rw [Files.disk, (Files.writeAll_log h.position hws).1, h.records_append hu hp (appends_fits hws)]
  rfl

end Crashes

end Storage
