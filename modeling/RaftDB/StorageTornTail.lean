import RaftDB.StorageFile
import RaftDB.StorageRecovery

/-!
# Torn tails

A history of calls leaves a file that is a stream of records, and the records replay to the log
that the calls amount to. Cut anywhere, the file loads to the log of the records that are still
whole, and the store goes on from there as if the others had never been written.
-/
namespace Storage

open Raft ByteEncodings FramedStream

section Logs

variable {log : List LogEntry} {r : WalRecord} {rs rs' : List WalRecord}

/-- The entries are numbered consecutively, from any index on. -/
def Chained (es : List LogEntry) : Prop := es.IsChain fun x y => y.index = x.index + 1

instance (es : List LogEntry) : Decidable (Chained es) :=
  inferInstanceAs (Decidable (es.IsChain _))

def applyRecord (log : List LogEntry) : WalRecord → List LogEntry
  | .append e => log ++ [e]
  | .truncate start => log.filter fun e => e.index < start
  | .unknown _ => log

def Admissible (log : List LogEntry) : WalRecord → Prop
  | .append e => Chained (log ++ [e])
  | .truncate start => 1 ≤ start
  | .unknown _ => False

def Orderly : List LogEntry → List WalRecord → Prop
  | _, [] => True
  | log, r :: rs => Admissible log r ∧ Orderly (applyRecord log r) rs

theorem orderly_append : Orderly log (rs ++ rs') ↔
    Orderly log rs ∧ Orderly (rs.foldl applyRecord log) rs' := by
  induction rs generalizing log with
  | nil => simp [Orderly]
  | cons r rs ih => simp [Orderly, ih, and_assoc]

theorem Chained.ascending (h : Chained log) : log.Pairwise fun x y => x.index < y.index := by
  apply List.isChain_iff_pairwise.mp
  apply List.IsChain.imp _ h
  intro x y hxy
  omega

theorem Chained.lt_of_mem {es : List LogEntry} {x e : LogEntry} (h : Chained (es ++ [e]))
    (hx : x ∈ es) : x.index < e.index :=
  (List.pairwise_append.mp h.ascending).2.2 x hx e (List.mem_singleton_self e)

theorem Chained.rdropWhile (h : Chained log) (start : ℕ) :
    log.rdropWhile (fun e => start ≤ e.index) = log.filter fun e => e.index < start := by
  induction log using List.reverseRecOn with
  | nil => rfl
  | append_singleton es e ih =>
    have hes : Chained es := h.left_of_append
    by_cases hle : start ≤ e.index
    · rw [List.rdropWhile_concat_pos _ _ _ (by simpa using hle), ih hes, List.filter_append]
      simp [hle]
    · rw [List.rdropWhile_concat_neg _ _ _ (by simpa using hle), List.filter_eq_self.mpr]
      intro x hx
      rcases List.mem_append.mp hx with hx | hx
      · have := h.lt_of_mem hx
        simp
        omega
      · rw [List.mem_singleton.mp hx]
        simp
        omega

theorem nextIndex_chained {e : LogEntry} (h : Chained (log ++ [e])) :
    nextIndex log = 0 ∨ nextIndex log = e.index := by
  cases hl : log.getLast? with
  | none => exact Or.inl (by rw [nextIndex, hl])
  | some x =>
    right
    rw [nextIndex, hl]
    obtain ⟨es, rfl⟩ := List.getLast?_eq_some_iff.mp hl
    rw [List.append_assoc] at h
    exact (List.isChain_pair.mp (List.isChain_append.mp h).2.1).symm

theorem replayRecord_chained {log' : List LogEntry} (h : Chained log)
    (hr : replayRecord log r = .ok log') : Chained log' := by
  cases r with
  | append e =>
    rw [Storage.replayRecord] at hr
    split at hr
    · cases hr
    · rename_i hnext
      cases hr
      apply List.isChain_append.mpr
      refine ⟨h, List.isChain_singleton e, ?_⟩
      intro x hx y hy
      cases hy
      have hwant : nextIndex log = x.index + 1 := by rw [nextIndex, hx]
      omega
  | truncate start =>
    rw [Storage.replayRecord] at hr
    split at hr
    · cases hr
    · cases hr
      obtain ⟨dropped, heq⟩ := List.rdropWhile_prefix (fun e => decide (start ≤ e.index)) log
      rw [← heq] at h
      exact h.left_of_append
  | unknown type => cases hr

theorem Admissible.replayRecord (h : Chained log) (hr : Admissible log r) :
    replayRecord log r = .ok (applyRecord log r) ∧ Chained (applyRecord log r) := by
  have hok : Storage.replayRecord log r = .ok (applyRecord log r) := by
    cases r with
    | append e =>
      have hnext := nextIndex_chained hr
      rw [Storage.replayRecord, if_neg (by omega)]
      rfl
    | truncate start =>
      have hstart : 1 ≤ start := hr
      rw [Storage.replayRecord, if_neg (by omega), h.rdropWhile]
      rfl
    | unknown type => exact hr.elim
  exact ⟨hok, replayRecord_chained h hok⟩

theorem replay_chained {log' : List LogEntry} (h : Chained log) (hr : replay log rs = .ok log') :
    Chained log' := by
  induction rs generalizing log with
  | nil =>
    cases hr
    exact h
  | cons r rs ih =>
    rw [Storage.replay] at hr
    split at hr
    · cases hr
    · rename_i mid hmid
      exact ih (replayRecord_chained h hmid) hr

theorem Chained.dropWhile (h : Chained log) (base : ℕ) :
    log.dropWhile (fun e => e.index ≤ base) = log.filter fun e => base < e.index := by
  induction log with
  | nil => rfl
  | cons e es ih =>
    by_cases hle : e.index ≤ base
    · rw [List.dropWhile_cons_of_pos (by simpa using hle), ih h.tail]
      simp [hle]
    · rw [List.dropWhile_cons_of_neg (by simpa using hle), List.filter_eq_self.mpr]
      intro x hx
      rcases List.mem_cons.mp hx with rfl | hx
      · simpa using hle
      · have := (List.pairwise_cons.mp h.ascending).1 x hx
        simp
        omega

section Recoveries

variable {wal : List WalRecord} {loaded : List LogEntry} {l : RaftLog}

theorem recoverEntries_split (hload : loadEntries wal = .ok loaded)
    (hrec : recoverEntries l.base (l.base + 1) loaded = .ok l.entries) :
    ∃ covered, loaded = covered ++ l.entries ∧ (∀ e ∈ covered, e.index ≤ l.base) ∧
      Chained (covered ++ l.entries) := by
  have hchain := replay_chained .nil hload
  have hsplit := List.takeWhile_append_dropWhile (p := fun e => decide (e.index ≤ l.base)) (l := loaded)
  rw [hchain.dropWhile, ← (recoverEntries_ok le_rfl hrec).2] at hsplit
  refine ⟨_, hsplit.symm, ?_, by rwa [hsplit]⟩
  intro e he
  simpa using List.mem_takeWhile_imp he

/-- Behind the loaded entries the log file goes on like the log, unless the log is empty and the
file ends below its boundary. -/
theorem replays_iff_next (hload : loadEntries wal = .ok loaded)
    (hrec : recoverEntries l.base (l.base + 1) loaded = .ok l.entries) :
    Replays wal l ↔ nextIndex loaded = 0 ∨ nextIndex loaded = l.lastLogIndex + 1 := by
  have hn : l.Numbered := (recoverEntries_ok le_rfl hrec).1
  constructor
  · rintro ⟨covered, hok, hc⟩
    rw [hload] at hok
    cases hok
    exact nextIndex_leftover hn hc
  · intro hnext
    obtain ⟨covered, rfl, hle, hchain⟩ := recoverEntries_split hload hrec
    refine ⟨covered, hload, hle, ?_⟩
    intro e he
    cases hentries : l.entries with
    | nil =>
      have hlast := hn.lastLogIndex_eq
      rw [hentries, List.append_nil, nextIndex, he] at hnext
      dsimp only at hnext
      rw [hentries, List.length_nil] at hlast
      omega
    | cons x xs =>
      rw [RaftLog.Numbered, hentries] at hn
      rw [hentries] at hchain
      have hjoin : x.index = e.index + 1 := (List.isChain_append.mp hchain).2.2 e he x rfl
      have hfirst : x.index = l.base + 1 := hn.1
      omega

theorem next_of_entries (hload : loadEntries wal = .ok loaded)
    (hrec : recoverEntries l.base (l.base + 1) loaded = .ok l.entries) (hne : l.entries ≠ []) :
    nextIndex loaded = l.lastLogIndex + 1 := by
  have hn : l.Numbered := (recoverEntries_ok le_rfl hrec).1
  obtain ⟨covered, rfl, _, _⟩ := recoverEntries_split hload hrec
  have hlast : (covered ++ l.entries).getLast? = some (l.entries.getLast hne) := by
    rw [List.getLast?_append, List.getLast?_eq_some_getLast hne, Option.some_or]
  rw [nextIndex, hlast, hn.lastLogIndex_eq, ← hn.last_index (List.getLast?_eq_some_getLast hne)]

end Recoveries

theorem Orderly.replay (h : Chained log) (hr : Orderly log rs) :
    replay log rs = .ok (rs.foldl applyRecord log) ∧ Chained (rs.foldl applyRecord log) := by
  induction rs generalizing log with
  | nil => exact ⟨rfl, h⟩
  | cons r rs ih =>
    obtain ⟨hone, hchain⟩ := Admissible.replayRecord h hr.1
    rw [Storage.replay, hone]
    exact ih hchain hr.2

theorem orderly_appends {es : List LogEntry} (h : Chained (log ++ es)) :
    Orderly log (es.map .append) ∧ (es.map .append).foldl applyRecord log = log ++ es := by
  induction es generalizing log with
  | nil => simp [Orderly]
  | cons e es ih =>
    rw [List.append_cons] at h
    obtain ⟨hrest, hfold⟩ := ih h
    refine ⟨⟨h.left_of_append, hrest⟩, ?_⟩
    rw [List.map_cons, List.foldl_cons, applyRecord, hfold, List.append_assoc]
    rfl

end Logs

section Calls

inductive StoreCall where
  | appendEntries (entries : List LogEntry)
  | truncateSuffix (start : ℕ)
  | compact (entries : List LogEntry)
  deriving DecidableEq, Repr

def FileStore.call (s : FileStore) : StoreCall → FileStore
  | .appendEntries entries => s.appendEntries entries
  | .truncateSuffix start => s.truncateSuffix start
  | .compact entries => s.compact entries

def FileStore.run (s : FileStore) (calls : List StoreCall) : FileStore := calls.foldl call s

namespace StoreCall

def records (rs : List WalRecord) : StoreCall → List WalRecord
  | .appendEntries entries => rs ++ entries.map .append
  | .truncateSuffix start => rs ++ [.truncate start]
  | .compact entries => entries.map .append

def apply (log : List LogEntry) : StoreCall → List LogEntry
  | .appendEntries entries => log ++ entries
  | .truncateSuffix start => log.filter fun e => e.index < start
  | .compact entries => entries

def writes {D : Type} : StoreCall → List (StoreWrite D)
  | .appendEntries entries => Storage.appendEntries entries
  | .truncateSuffix start => Storage.truncateSuffix start
  | .compact entries => [.compact entries]

/-- The entries continue the log, a truncation starts at an index, a compacted log is numbered
consecutively, and every record may be read back. -/
def Valid (log : List LogEntry) : StoreCall → Prop
  | .appendEntries entries => Chained (log ++ entries) ∧
      ∀ e ∈ entries, (WalRecord.append e).Fits ∧ (WalRecord.append e).Short
  | .truncateSuffix start => 1 ≤ start ∧ (WalRecord.truncate start).Fits ∧
      (WalRecord.truncate start).Short
  | .compact entries => Chained entries ∧
      ∀ e ∈ entries, (WalRecord.append e).Fits ∧ (WalRecord.append e).Short

end StoreCall

def ValidHistory : List LogEntry → List StoreCall → Prop
  | _, [] => True
  | log, c :: cs => c.Valid log ∧ ValidHistory (c.apply log) cs

/-- The file is the stream of the records, the handle stands at its end, and the records mean
the log. -/
structure FileStore.Holds (s : FileStore) (rs : List WalRecord) (log : List LogEntry) : Prop where
  wal : s.wal = stream recordBytes rs
  position : s.position = s.wal.length
  fits : ∀ r ∈ rs, r.Fits ∧ r.Short
  orderly : Orderly [] rs
  log : rs.foldl applyRecord [] = log

variable {s : FileStore} {rs : List WalRecord} {log : List LogEntry}

theorem FileStore.Holds.call (h : s.Holds rs log) {c : StoreCall} (hc : c.Valid log) :
    (s.call c).Holds (c.records rs) (c.apply log) := by
  cases c with
  | appendEntries entries =>
    have hcall := appendEntries_at_end h.position entries
    have hchain := hc.1
    rw [← h.log] at hchain
    obtain ⟨hord, hfold⟩ := orderly_appends hchain
    rw [FileStore.call, hcall, h.wal, ← stream_append]
    refine ⟨rfl, rfl, ?_, orderly_append.mpr ⟨h.orderly, hord⟩, ?_⟩
    · intro r hr
      rcases List.mem_append.mp hr with hr | hr
      · exact h.fits r hr
      · obtain ⟨e, he, rfl⟩ := List.mem_map.mp hr
        exact hc.2 e he
    · rw [StoreCall.records, List.foldl_append, hfold, h.log]
      rfl
  | truncateSuffix start =>
    have hcall := writeRecord_at_end h.position (.truncate start)
    rw [FileStore.call, FileStore.truncateSuffix, hcall, h.wal]
    refine ⟨by simp [StoreCall.records], rfl, ?_,
      orderly_append.mpr ⟨h.orderly, hc.1, trivial⟩, ?_⟩
    · intro r hr
      rcases List.mem_append.mp hr with hr | hr
      · exact h.fits r hr
      · rw [List.mem_singleton.mp hr]
        exact hc.2
    · rw [StoreCall.records, List.foldl_append, h.log]
      rfl
  | compact entries =>
    have hchain : Chained ([] ++ entries) := hc.1
    obtain ⟨hord, hfold⟩ := orderly_appends hchain
    refine ⟨rfl, rfl, ?_, hord, hfold⟩
    intro r hr
    obtain ⟨e, he, rfl⟩ := List.mem_map.mp hr
    exact hc.2 e he

theorem FileStore.Holds.run (h : s.Holds rs log) {calls : List StoreCall}
    (hc : ValidHistory log calls) :
    (s.run calls).Holds (calls.foldl StoreCall.records rs) (calls.foldl StoreCall.apply log) := by
  induction calls generalizing s rs log with
  | nil => exact h
  | cons c cs ih => exact ih (h.call hc.1) hc.2

theorem holds_new : (FileStore.newFileStore []).Holds [] [] :=
  ⟨rfl, rfl, by simp, trivial, rfl⟩

theorem writeAll_calls {D : Type} (d : Disk D) (calls : List StoreCall) :
    (d.writeAll (calls.flatMap StoreCall.writes)).wal = calls.foldl StoreCall.records d.wal := by
  have happend : ∀ (entries : List LogEntry) (d : Disk D),
      (d.writeAll (appendEntries entries)).wal = d.wal ++ entries.map .append := by
    intro entries
    induction entries with
    | nil => simp [Disk.writeAll, appendEntries]
    | cons e es ih =>
      intro d
      have := ih (d.write (.writeRecord (.append e)))
      simpa [Disk.writeAll, appendEntries, Disk.write] using this
  induction calls generalizing d with
  | nil => rfl
  | cons c cs ih =>
    have hone : (d.writeAll c.writes).wal = c.records d.wal := by
      cases c with
      | appendEntries entries => exact happend entries d
      | truncateSuffix start => rfl
      | compact entries => rfl
    have hsplit : d.writeAll ((c :: cs).flatMap StoreCall.writes) =
        (d.writeAll c.writes).writeAll (cs.flatMap StoreCall.writes) := List.foldl_append
    rw [hsplit, ih, hone, List.foldl_cons]

end Calls

section Loads

variable {unmarshal : List UInt8 → Option RawRecord} {s : FileStore} {rs : List WalRecord}
  {log : List LogEntry}

namespace FileStore

theorem Holds.reads (hu : Inverts unmarshal) (h : s.Holds rs log) :
    ∀ r ∈ rs, Reads (recordReader unmarshal) recordBytes r :=
  fun r hr => reads_record hu (h.fits r hr).1 (h.fits r hr).2

/-- A load of the file, cut at any byte: the whole records, and a store that holds them. -/
theorem Holds.load_take (hu : Inverts unmarshal) (h : s.Holds rs log) (n : ℕ) :
    ∃ t, (newFileStore (s.wal.take n)).loadEntries unmarshal =
        .ok ((wholeWithin recordBytes n rs).foldl applyRecord [], t) ∧
      t.Holds (wholeWithin recordBytes n rs)
        ((wholeWithin recordBytes n rs).foldl applyRecord []) := by
  obtain ⟨tail, htail, htake⟩ := take_stream (h.reads hu) n
  obtain ⟨lost, hsplit⟩ := wholeWithin_isPrefix recordBytes n rs
  generalize wholeWithin recordBytes n rs = whole at htake hsplit ⊢
  subst hsplit
  have hord := (orderly_append.mp h.orderly).1
  have hreads : ∀ r ∈ whole, Reads (recordReader unmarshal) recordBytes r :=
    fun r hr => h.reads hu r (List.mem_append_left _ hr)
  refine ⟨⟨stream recordBytes whole, (stream recordBytes whole).length⟩, ?_, rfl, rfl,
    fun r hr => h.fits r (List.mem_append_left _ hr), hord, rfl⟩
  rw [loadEntries, newFileStore, h.wal, htake, fold_stream hreads htail, ← replay_eq_foldlM,
    (hord.replay .nil).1]
  simp [Except.map]

theorem Holds.load (hu : Inverts unmarshal) (h : s.Holds rs log) :
    ∃ t, s.loadEntries unmarshal = .ok (log, t) := by
  have hfold : (recordReader unmarshal).fold replayRecord [] 0 (stream recordBytes rs ++ []) = _ :=
    fold_stream (h.reads hu) (recordReader unmarshal).read_nil
  rw [← replay_eq_foldlM, (h.orderly.replay .nil).1, h.log, List.append_nil] at hfold
  rw [loadEntries, h.wal, hfold]
  exact ⟨_, rfl⟩

end FileStore

/-- Any history of calls, the file cut at any byte, and any history after the reload. -/
theorem torn_tail_recovers (unmarshal : List UInt8 → Option RawRecord) (hu : Inverts unmarshal)
    (calls : List StoreCall) (hc : ValidHistory [] calls) (n : ℕ) :
    let file := ((FileStore.newFileStore []).run calls).wal
    let records := calls.foldl StoreCall.records []
    let whole := wholeWithin recordBytes n records
    let log := whole.foldl applyRecord []
    file = stream recordBytes records ∧
    ∃ s, (FileStore.newFileStore (file.take n)).loadEntries unmarshal = .ok (log, s) ∧
      s.wal = stream recordBytes whole ∧ s.position = s.wal.length ∧
      ∀ more, ValidHistory log more →
        ∃ t, (s.run more).loadEntries unmarshal = .ok (more.foldl StoreCall.apply log, t) := by
  intro file records whole log
  have hholds := holds_new.run hc
  obtain ⟨s, hload, hs⟩ := hholds.load_take hu n
  refine ⟨hholds.wal, s, hload, hs.wal, hs.position, fun more hmore => ?_⟩
  exact (hs.run hmore).load hu

def conflictCalls : List StoreCall :=
  [.appendEntries [⟨1, 1, [97]⟩, ⟨1, 2, [98]⟩], .truncateSuffix 2,
    .appendEntries [⟨2, 2, [99]⟩]]

/-- The cut is inside the record of the replacement. -/
theorem torn_tail_recovers_conflict :
    ∃ s t, (FileStore.newFileStore (((FileStore.newFileStore []).run
        conflictCalls).wal.take 200)).loadEntries unmarshalMembers = .ok ([⟨1, 1, [97]⟩], s) ∧
      (s.run [.appendEntries [⟨3, 2, [100]⟩]]).loadEntries unmarshalMembers =
        .ok ([⟨1, 1, [97]⟩, ⟨3, 2, [100]⟩], t) := by
  have hc : ValidHistory [] conflictCalls :=
    ⟨⟨by decide, by decide +kernel⟩, ⟨by decide, by decide +kernel⟩,
      ⟨by decide, by decide +kernel⟩, trivial⟩
  have hlog : (wholeWithin recordBytes 200 (conflictCalls.foldl StoreCall.records [])).foldl
      applyRecord [] = [⟨1, 1, [97]⟩] := by decide +kernel
  obtain ⟨_, s, hload, _, _, hmore⟩ :=
    torn_tail_recovers unmarshalMembers inverts_unmarshalMembers _ hc 200
  rw [hlog] at hload hmore
  obtain ⟨t, ht⟩ := hmore [.appendEntries [⟨3, 2, [100]⟩]]
    ⟨⟨by decide, by decide +kernel⟩, trivial⟩
  exact ⟨s, t, hload, ht⟩

end Loads

end Storage
