import RaftDB.FramedStream
import RaftDB.StorageRecords
import Mathlib.Data.List.Chain

/-!
# The log file, byte by byte

The write-ahead log as a file of bytes with a handle that has a position. Writes go where the
handle stands; a load reads record after record from the start, stops at the first one that is
torn, oversized or damaged, and cuts the file there. Operations of the file system succeed; a call
that fails brings the process down, and the file is then cut at some byte.

Fields of records are `uint64` in the source. How a payload is decoded is left open: `unmarshal`
is whatever `json.Unmarshal` does.
-/
namespace Storage

open Raft ByteEncodings FramedStream

def maxRecordSize : ℕ := 64 <<< 20

/-- Length, checksum, payload. The length is converted to `uint32`. -/
def frame (payload : List UInt8) : List UInt8 :=
  putUint32 payload.length ++ (putUint32 (crc32 payload) ++ payload)

def recordBytes (r : WalRecord) : List UInt8 := frame (marshal r.raw)

/-- The content of `wal.log` and the position of the handle. -/
structure FileStore where
  wal : List UInt8
  position : ℕ
  deriving DecidableEq, Repr

namespace FileStore

def newFileStore (content : List UInt8) : FileStore := ⟨content, 0⟩

/-- `Write` at the position of the handle; a gap before it would be filled with zeros. -/
def write (s : FileStore) (buf : List UInt8) : FileStore where
  wal := s.wal.take s.position ++ List.replicate (s.position - s.wal.length) 0 ++ buf ++
    s.wal.drop (s.position + buf.length)
  position := s.position + buf.length

def writeRecord (s : FileStore) (r : WalRecord) : FileStore := s.write (recordBytes r)

def appendEntries (s : FileStore) (entries : List LogEntry) : FileStore :=
  entries.foldl (fun s e => s.writeRecord (.append e)) s

def truncateSuffix (s : FileStore) (start : ℕ) : FileStore := s.writeRecord (.truncate start)

def compact (_ : FileStore) (entries : List LogEntry) : FileStore :=
  let content := stream recordBytes (entries.map .append)
  ⟨content, content.length⟩

end FileStore

/-- One round of the loop in `LoadEntries`: the record at the start and the bytes it takes. -/
def readRecord (unmarshal : List UInt8 → Option RawRecord) (bs : List UInt8) :
    Option (WalRecord × ℕ) :=
  if bs.length < 8 then none
  else
    let length := getUint32 (bs.take 4)
    let sum := getUint32 ((bs.drop 4).take 4)
    if length = 0 ∨ length > maxRecordSize then none
    else
      let payload := (bs.drop 8).take length
      if payload.length < length then none
      else if crc32 payload ≠ sum then none
      else (unmarshal payload).map fun r => (r.record, 8 + length)

section Reading

variable {unmarshal : List UInt8 → Option RawRecord} {bs more : List UInt8} {r : WalRecord}
  {n i k : ℕ}

theorem drop_take_append (h : i + k ≤ n) (hn : n ≤ bs.length) :
    ((bs.take n ++ more).drop i).take k = (bs.drop i).take k := by
  rw [List.drop_append_of_le_length (by rw [List.length_take]; omega),
    List.take_append_of_le_length (by rw [List.length_drop, List.length_take]; omega),
    List.drop_take, List.take_take, Nat.min_eq_left (by omega)]

theorem readRecord_some (h : readRecord unmarshal bs = some (r, n)) :
    8 < n ∧ n ≤ bs.length ∧ n = 8 + getUint32 (bs.take 4) := by
  rw [readRecord] at h
  split at h
  · cases h
  dsimp only at h
  split at h
  · cases h
  rename_i hsize
  split at h
  · cases h
  rename_i hpayload
  split at h
  · cases h
  obtain ⟨raw, _, heq⟩ := Option.map_eq_some_iff.mp h
  cases heq
  rw [List.length_take, List.length_drop] at hpayload
  omega

theorem readRecord_decoded (h : readRecord unmarshal bs = some (r, n)) :
    ∃ payload raw, unmarshal payload = some raw ∧ raw.record = r := by
  rw [readRecord] at h
  split at h
  · cases h
  dsimp only at h
  split at h
  · cases h
  split at h
  · cases h
  split at h
  · cases h
  obtain ⟨raw, hraw, heq⟩ := Option.map_eq_some_iff.mp h
  exact ⟨_, raw, hraw, congrArg Prod.fst heq⟩

theorem readRecord_stable (h : readRecord unmarshal bs = some (r, n)) (more : List UInt8) :
    readRecord unmarshal (bs.take n ++ more) = some (r, n) := by
  obtain ⟨hn, hle, hsize⟩ := readRecord_some h
  have hlength : (bs.take n ++ more).take 4 = bs.take 4 :=
    drop_take_append (i := 0) (by omega) hle
  have hsum : ((bs.take n ++ more).drop 4).take 4 = (bs.drop 4).take 4 :=
    drop_take_append (by omega) hle
  have hpayload : ((bs.take n ++ more).drop 8).take (getUint32 (bs.take 4)) =
      (bs.drop 8).take (getUint32 (bs.take 4)) := drop_take_append (by omega) hle
  have hshort : ¬(bs.take n ++ more).length < 8 := by
    rw [List.length_append, List.length_take]
    omega
  have hshort' : ¬bs.length < 8 := by omega
  rw [readRecord, if_neg hshort'] at h
  rw [readRecord, if_neg hshort, hlength, hsum]
  dsimp only at h ⊢
  rw [hpayload]
  exact h

def recordReader (unmarshal : List UInt8 → Option RawRecord) : Reader UInt8 WalRecord where
  read := readRecord unmarshal
  pos h := by
    have := (readRecord_some h).1
    omega
  le h := (readRecord_some h).2.1
  stable := readRecord_stable

end Reading

/-- The entries, and the store with the torn tail cut off. -/
def FileStore.loadEntries (unmarshal : List UInt8 → Option RawRecord) (s : FileStore) :
    Except LoadError (List LogEntry × FileStore) :=
  ((recordReader unmarshal).fold replayRecord [] 0 s.wal).map fun (entries, offset) =>
    (entries, ⟨s.wal.take offset, offset⟩)

def FileStore.loadEntriesUint64 (unmarshal : List UInt8 → Option RawRecord) (s : FileStore) :
    Except LoadError (List LogEntry × FileStore) :=
  ((recordReader unmarshal).fold replayRecordUint64 [] 0 s.wal).map fun (entries, offset) =>
    (entries, ⟨s.wal.take offset, offset⟩)

section Writing

variable {s : FileStore}

theorem writeRecord_at_end (h : s.position = s.wal.length) (r : WalRecord) :
    s.writeRecord r = ⟨s.wal ++ recordBytes r, (s.wal ++ recordBytes r).length⟩ := by
  simp [FileStore.writeRecord, FileStore.write, h]

theorem appendEntries_at_end (h : s.position = s.wal.length) (entries : List LogEntry) :
    s.appendEntries entries = ⟨s.wal ++ stream recordBytes (entries.map .append),
      (s.wal ++ stream recordBytes (entries.map .append)).length⟩ := by
  induction entries generalizing s with
  | nil => simp [FileStore.appendEntries, ← h]
  | cons e es ih =>
    have hnext : s.appendEntries (e :: es) = (s.writeRecord (.append e)).appendEntries es := rfl
    rw [hnext, writeRecord_at_end h, ih rfl]
    simp

end Writing

section Records

variable {unmarshal : List UInt8 → Option RawRecord} {r : WalRecord} {rs : List WalRecord}

def WalRecord.Fits : WalRecord → Prop
  | .append e => e.term < 2 ^ 64 ∧ e.index < 2 ^ 64
  | .truncate start => start < 2 ^ 64
  | .unknown _ => False

instance : (r : WalRecord) → Decidable r.Fits
  | .append e => inferInstanceAs (Decidable (e.term < 2 ^ 64 ∧ e.index < 2 ^ 64))
  | .truncate start => inferInstanceAs (Decidable (start < 2 ^ 64))
  | .unknown _ => inferInstanceAs (Decidable False)

theorem WalRecord.Fits.written (h : r.Fits) : r.Written := by
  cases r with
  | append e => trivial
  | truncate start => trivial
  | unknown type => exact h

/-- `json.Unmarshal` inverts `json.Marshal` on the records that the store writes. -/
def Inverts (unmarshal : List UInt8 → Option RawRecord) : Prop :=
  ∀ r : WalRecord, r.Fits → unmarshal (marshal r.raw) = some r.raw

theorem inverts_unmarshalMembers : Inverts unmarshalMembers :=
  fun _ h => unmarshalMembers_marshal h.written

theorem length_frame (payload : List UInt8) : (frame payload).length = 8 + payload.length := by
  simp only [frame, List.length_append, length_putUint32]
  omega

theorem take_four_frame (payload rest : List UInt8) :
    (frame payload ++ rest).take 4 = putUint32 payload.length := by
  rw [frame, List.append_assoc]
  exact List.take_left' rfl

theorem drop_four_frame (payload rest : List UInt8) :
    ((frame payload ++ rest).drop 4).take 4 = putUint32 (crc32 payload) := by
  have hdrop : (frame payload ++ rest).drop 4 = putUint32 (crc32 payload) ++ (payload ++ rest) := by
    rw [frame, List.append_assoc, List.append_assoc]
    exact List.drop_left' rfl
  rw [hdrop]
  exact List.take_left' rfl

theorem drop_eight_frame (payload rest : List UInt8) :
    (frame payload ++ rest).drop 8 = payload ++ rest := by
  have hassoc : frame payload ++ rest =
      (putUint32 payload.length ++ putUint32 (crc32 payload)) ++ (payload ++ rest) := by
    simp only [frame, List.append_assoc]
  rw [hassoc]
  exact List.drop_left' rfl

/-- What the loop sees of a frame: the payload as far as the converted length reaches. -/
theorem readRecord_frame (payload rest : List UInt8) :
    readRecord unmarshal (frame payload ++ rest) =
      if payload.length % 2 ^ 32 = 0 ∨ payload.length % 2 ^ 32 > maxRecordSize then none
      else
        let part := (payload ++ rest).take (payload.length % 2 ^ 32)
        if crc32 part ≠ crc32 payload then none
        else (unmarshal part).map fun r => (r.record, 8 + payload.length % 2 ^ 32) := by
  have hlen : ¬(frame payload ++ rest).length < 8 := by
    rw [List.length_append, length_frame]
    omega
  have hfull : ¬((payload ++ rest).take (payload.length % 2 ^ 32)).length <
      payload.length % 2 ^ 32 := by
    have := Nat.mod_le payload.length (2 ^ 32)
    rw [List.length_take, List.length_append]
    omega
  rw [readRecord, if_neg hlen, take_four_frame, drop_four_frame, drop_eight_frame,
    getUint32_putUint32, getUint32_putUint32, Nat.mod_eq_of_lt (crc32_lt payload)]
  dsimp only
  rw [if_neg hfull]

def WalRecord.Short (r : WalRecord) : Prop := (marshal r.raw).length ≤ maxRecordSize

instance (r : WalRecord) : Decidable r.Short :=
  inferInstanceAs (Decidable ((marshal r.raw).length ≤ maxRecordSize))

theorem WalRecord.Short.mod_eq (h : r.Short) :
    (marshal r.raw).length % 2 ^ 32 = (marshal r.raw).length := by
  have hmax : maxRecordSize < 2 ^ 32 := by decide
  exact Nat.mod_eq_of_lt (lt_of_le_of_lt h hmax)

/-- Records of admissible size are read back whole and never in part. -/
theorem reads_record (hu : Inverts unmarshal) (hf : r.Fits) (hs : r.Short) :
    Reads (recordReader unmarshal) recordBytes r := by
  have hpos := marshal_pos r.raw
  have hsize : ¬((marshal r.raw).length = 0 ∨ (marshal r.raw).length > maxRecordSize) := by
    have : (marshal r.raw).length ≤ maxRecordSize := hs
    omega
  constructor
  · intro rest
    change readRecord unmarshal (frame (marshal r.raw) ++ rest) = _
    rw [readRecord_frame, hs.mod_eq, if_neg hsize, List.take_left]
    dsimp only
    rw [if_neg (by simp), hu r hf, Option.map_some, hf.written.record, recordBytes, length_frame]
  · intro k hk
    change readRecord unmarshal ((frame (marshal r.raw)).take k) = none
    rw [recordBytes, length_frame] at hk
    rw [readRecord]
    by_cases hheader : ((frame (marshal r.raw)).take k).length < 8
    · rw [if_pos hheader]
    · have hk8 : 8 ≤ k := by
        rw [List.length_take] at hheader
        omega
      have hlength : ((frame (marshal r.raw)).take k).take 4 =
          putUint32 (marshal r.raw).length := by
        rw [List.take_take, Nat.min_eq_left (by omega), ← take_four_frame _ [], List.append_nil]
      rw [if_neg hheader, hlength, getUint32_putUint32, hs.mod_eq]
      dsimp only
      rw [if_neg hsize, if_pos]
      simp only [List.length_take, List.length_drop, length_frame]
      omega

theorem replay_eq_foldlM (es : List LogEntry) (rs : List WalRecord) :
    replay es rs = rs.foldlM replayRecord es := by
  induction rs generalizing es with
  | nil => rfl
  | cons r rs ih =>
    rw [replay, List.foldlM_cons]
    cases replayRecord es r with
    | error e => rfl
    | ok es' => exact ih es'

end Records

end Storage
