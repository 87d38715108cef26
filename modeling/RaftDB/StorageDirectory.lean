import RaftDB.CrashFileSystem
import RaftDB.StorageFiles
import RaftDB.StorageFormats
import RaftDB.TransitionSystem

/-!
# The directory of a node

The store on top of a file system that can crash: each method is the sequence of the system calls
that it makes, and a crash can come between any two of them and lose what was not synced. Over any
number of boots and crashes the files are read as the effect of all writes of the calls that have
returned, and of some of the first writes of each call that was interrupted.

A process that is killed is a crash that loses nothing: the machine is taken to stay up until its
cache is written back. A call that fails returns an error, on which the process stops.
-/
namespace Storage

open Raft CrashFileSystem FramedStream TransitionSystem

def hardStateFile : String := "hardstate.json"

def snapshotFile : String := "snapshot.json"

def walFile : String := "wal.log"

/-- The name that `os.CreateTemp` makes up. -/
def tempName (name suffix : String) : String := name ++ ".tmp-" ++ suffix

inductive DirError where
  | corruptHardState
  | corruptSnapshot
  deriving DecidableEq, Repr

/-- A `FileStore`: the number of the log file and the position of its handle. -/
structure DirStore where
  fs : FileSystem
  wal : ℕ
  position : ℕ

inductive DirCall where
  | saveHardState (hs : HardState)
  | appendEntries (entries : List LogEntry)
  | truncateSuffix (start : ℕ)
  | saveSnapshot (snap : Snapshot (List UInt8))
  | compact (entries : List LogEntry)
  deriving DecidableEq, Repr

def DirCall.writes : DirCall → List (StoreWrite (List UInt8))
  | .saveHardState hs => [.saveHardState hs]
  | .appendEntries entries => Storage.appendEntries entries
  | .truncateSuffix start => Storage.truncateSuffix start
  | .saveSnapshot snap => [.saveSnapshot snap]
  | .compact entries => [.compact entries]

namespace DirStore

def atomicWrite (d : DirStore) (suffix name : String) (data : List UInt8) : List Call :=
  d.fs.replace (tempName name suffix) name [data]

def writeRecords (d : DirStore) (rs : List WalRecord) : List Call :=
  FileSystem.writes d.wal d.position (rs.map recordBytes)

def syncWAL (d : DirStore) : List Call := [.sync d.wal]

def appendEntries (d : DirStore) (entries : List LogEntry) : List Call :=
  if entries = [] then [] else d.writeRecords (entries.map .append) ++ d.syncWAL

def truncateSuffix (d : DirStore) (start : ℕ) : List Call :=
  d.writeRecords [.truncate start] ++ d.syncWAL

/-- The same sequence as in `atomicWrite`, with one write for each record. -/
def compact (d : DirStore) (suffix : String) (entries : List LogEntry) : List Call :=
  d.fs.replace (tempName walFile suffix) walFile (entries.map fun e => recordBytes (.append e))

def calls (d : DirStore) (suffix : String) : DirCall → List Call
  | .saveHardState hs => d.atomicWrite suffix hardStateFile (marshalHardState hs)
  | .appendEntries entries => d.appendEntries entries
  | .truncateSuffix start => d.truncateSuffix start
  | .saveSnapshot snap => d.atomicWrite suffix snapshotFile (marshalSnapshot snap)
  | .compact entries => d.compact suffix entries

def temp (suffix : String) : DirCall → Option String
  | .saveHardState _ => some (tempName hardStateFile suffix)
  | .saveSnapshot _ => some (tempName snapshotFile suffix)
  | .compact _ => some (tempName walFile suffix)
  | _ => none

/-- The deferred `os.Remove` of a call that fails. -/
def cleanup (suffix : String) (c : DirCall) : List Call :=
  match temp suffix c with
  | some tmp => [.remove tmp]
  | none => []

end DirStore

def openWAL (fs : FileSystem) : FileSystem × ℕ :=
  match fs.entry walFile with
  | some file => (fs, file)
  | none => (fs.call (.create walFile), fs.next)

namespace DirStore

def newFileStore (fs : FileSystem) : DirStore :=
  let (fs, file) := openWAL fs
  ⟨fs, file, 0⟩

def content (d : DirStore) : List UInt8 := (d.fs.files d.wal).content

/-- The whole call. After a compaction the handle is that of the new file, at its end. -/
def perform (d : DirStore) (suffix : String) (c : DirCall) : DirStore :=
  let fs := d.fs.run (d.calls suffix c)
  match c with
  | .appendEntries entries =>
    ⟨fs, d.wal, d.position + (stream recordBytes (entries.map .append)).length⟩
  | .truncateSuffix start => ⟨fs, d.wal, d.position + (recordBytes (.truncate start)).length⟩
  | .compact _ =>
    let (fs, file) := openWAL fs
    ⟨fs, file, (fs.files file).content.length⟩
  | _ => { d with fs := fs }

def loadHardState (d : DirStore) : Except DirError (Option HardState) :=
  match d.fs.read hardStateFile with
  | none => .ok none
  | some data =>
    match unmarshalHardState data with
    | none => .error .corruptHardState
    | some hs => .ok (some hs)

def loadSnapshot (d : DirStore) : Except DirError (Option (Snapshot (List UInt8))) :=
  match d.fs.read snapshotFile with
  | none => .ok none
  | some data =>
    match unmarshalSnapshot data with
    | none => .error .corruptSnapshot
    | some snap => .ok (some snap)

/-- The torn tail is cut off, which is not synced. -/
def loadEntries (d : DirStore) : Except LoadError (List LogEntry × DirStore) :=
  ((FileStore.newFileStore d.content).loadEntries unmarshalRecord).map fun (entries, s) =>
    (entries, ⟨d.fs.call (.truncate d.wal s.position), d.wal, s.position⟩)

/-- All that `NewNode` reads; of the log, the records in front of a torn tail. -/
def disk (d : DirStore) : Except DirError (Disk (List UInt8)) := do
  let hardState ← d.loadHardState
  let snapshot ← d.loadSnapshot
  pure ⟨hardState, (recordReader unmarshalRecord).records d.content, snapshot⟩

end DirStore

inductive Machine where
  | off (fs : FileSystem)
  | on (d : DirStore)

inductive DirEvent where
  | boot
  | call (c : DirCall) (suffix : String)
  /-- The crash comes after `k` system calls; the call may have failed and cleaned up. -/
  | crash (c : DirCall) (suffix : String) (k : ℕ) (failed : Bool) (loss : Loss)

namespace Machine

def boot (fs : FileSystem) : Machine :=
  let d := DirStore.newFileStore fs
  match d.disk with
  | .error _ => .off d.fs
  | .ok _ =>
    match d.loadEntries with
    | .error _ => .off d.fs
    | .ok (_, d) => .on d

def interrupted (d : DirStore) (c : DirCall) (suffix : String) (k : ℕ) (failed : Bool) : FileSystem :=
  d.fs.run ((d.calls suffix c).take k ++ if failed then DirStore.cleanup suffix c else [])

/-- `os.CreateTemp` takes a name that is not in use. -/
def unused (d : DirStore) (c : DirCall) (suffix : String) : Bool :=
  (DirStore.temp suffix c).all fun tmp => (d.fs.entry tmp).isNone

def step : Machine → DirEvent → Option Machine
  | .off fs, .boot => some (boot fs)
  | .off fs, .crash _ _ _ _ loss => some (.off (fs.crash loss))
  | .on d, .call c suffix =>
    if unused d c suffix then some (.on (d.perform suffix c)) else none
  | .on d, .crash c suffix k failed loss =>
    if unused d c suffix then some (.off ((interrupted d c suffix k failed).crash loss)) else none
  | _, _ => none

end Machine

/-! ## What the calls may be asked to do -/

def StoreWrite.Storable : StoreWrite (List UInt8) → Prop
  | .saveHardState hs => hs.currentTerm < 2 ^ 64
  | .writeRecord r => r.Fits ∧ r.Short
  | .saveSnapshot snap => snap.lastIncludedIndex < 2 ^ 64 ∧ snap.lastIncludedTerm < 2 ^ 64
  | .compact entries => ∀ e ∈ entries, (WalRecord.append e).Fits ∧ (WalRecord.append e).Short

instance : (w : StoreWrite (List UInt8)) → Decidable w.Storable
  | .saveHardState hs => inferInstanceAs (Decidable (hs.currentTerm < 2 ^ 64))
  | .writeRecord r => inferInstanceAs (Decidable (r.Fits ∧ r.Short))
  | .saveSnapshot snap =>
    inferInstanceAs (Decidable (snap.lastIncludedIndex < 2 ^ 64 ∧ snap.lastIncludedTerm < 2 ^ 64))
  | .compact entries => inferInstanceAs (Decidable
    (∀ e ∈ entries, (WalRecord.append e).Fits ∧ (WalRecord.append e).Short))

def DirCall.Fits (c : DirCall) : Prop := ∀ w ∈ c.writes, w.Storable

instance (c : DirCall) : Decidable c.Fits :=
  inferInstanceAs (Decidable (∀ w ∈ c.writes, w.Storable))

def DirCall.records : DirCall → List WalRecord
  | .appendEntries entries => entries.map .append
  | .truncateSuffix start => [.truncate start]
  | _ => []

/-- No record is longer than a load accepts, and records are only added to a log file that a crash
cannot remove from the directory. -/
def Machine.Allowed : Machine → DirEvent → Prop
  | .on d, .call c _ => c.Fits ∧ (c.records = [] ∨ d.fs.past walFile = [])
  | .on d, .crash c _ _ _ _ => c.Fits ∧ (c.records = [] ∨ d.fs.past walFile = [])
  | _, _ => True

instance : (m : Machine) → (e : DirEvent) → Decidable (m.Allowed e)
  | .on d, .call c _ => inferInstanceAs (Decidable (c.Fits ∧ (c.records = [] ∨ d.fs.past walFile = [])))
  | .on d, .crash c _ _ _ _ =>
    inferInstanceAs (Decidable (c.Fits ∧ (c.records = [] ∨ d.fs.past walFile = [])))
  | .on _, .boot => inferInstanceAs (Decidable True)
  | .off _, .boot => inferInstanceAs (Decidable True)
  | .off _, .call _ _ => inferInstanceAs (Decidable True)
  | .off _, .crash _ _ _ _ _ => inferInstanceAs (Decidable True)

/-- The writes behind an event: all of a call that returns, and the first ones of a call that is
interrupted. -/
def DirEvent.Writes : DirEvent → List (StoreWrite (List UInt8)) → Prop
  | .boot, ws => ws = []
  | .call c _, ws => ws = c.writes
  | .crash c _ _ _ _, ws => ∃ j, ws = c.writes.take j

/-! ## The invariant -/

/-- The file holds the records and, behind them, at most what is read as a torn tail. -/
def Torn (rs : List WalRecord) : Option (List UInt8) → Prop
  | none => rs = []
  | some content => ∃ tail, content = stream recordBytes rs ++ tail ∧
      readRecord unmarshalRecord tail = none

structure Disk.Storable (disk : Disk (List UInt8)) : Prop where
  hardState : ∀ hs, disk.hardState = some hs → hs.currentTerm < 2 ^ 64
  snapshot : ∀ snap, disk.snapshot = some snap →
    snap.lastIncludedIndex < 2 ^ 64 ∧ snap.lastIncludedTerm < 2 ^ 64
  records : ∀ r ∈ disk.wal, r.Fits ∧ r.Short

def IsStoreFile (name : String) : Prop := name = hardStateFile ∨ name = snapshotFile ∨ name = walFile

/-- The content of a file, or its absence, stands for its part of the disk. -/
def Disk.Shows (disk : Disk (List UInt8)) (name : String) (o : Option (List UInt8)) : Prop :=
  if name = hardStateFile then o = disk.hardState.map marshalHardState
  else if name = snapshotFile then o = disk.snapshot.map marshalSnapshot
  else Torn disk.wal o

/-- Whatever a crash loses, the files are read as the disk. -/
structure Kept (fs : FileSystem) (disk : Disk (List UInt8)) : Prop where
  valid : fs.Valid
  apart : ∀ {a b file}, IsStoreFile a → IsStoreFile b → a ≠ b → fs.Possible a (some file) →
    ¬fs.Possible b (some file)
  shows : ∀ {name o}, IsStoreFile name → fs.Survives name o → disk.Shows name o
  storable : disk.Storable
  /-- A log file that has been replaced does not come back. -/
  fresh : fs.entry walFile ∉ fs.past walFile

structure Ready (d : DirStore) (disk : Disk (List UInt8)) : Prop where
  kept : Kept d.fs disk
  entry : d.fs.entry walFile = some d.wal
  content : d.content = stream recordBytes disk.wal
  position : d.position = d.content.length

def Machine.Holds (disk : Disk (List UInt8)) : Machine → Prop
  | .off fs => Kept fs disk
  | .on d => Ready d disk

section Disks

variable {disk : Disk (List UInt8)} {w : StoreWrite (List UInt8)} {ws : List (StoreWrite (List UInt8))}
  {rs more : List WalRecord}

theorem Disk.Storable.write (h : disk.Storable) (hw : w.Storable) : (disk.write w).Storable := by
  cases w with
  | saveHardState hs =>
    refine ⟨fun x hx => ?_, h.snapshot, h.records⟩
    cases hx
    exact hw
  | writeRecord r =>
    refine ⟨h.hardState, h.snapshot, fun x hx => ?_⟩
    rcases List.mem_append.mp hx with hx | hx
    · exact h.records x hx
    · rw [List.mem_singleton.mp hx]
      exact hw
  | saveSnapshot snap =>
    refine ⟨h.hardState, fun x hx => ?_, h.records⟩
    cases hx
    exact hw
  | compact entries =>
    refine ⟨h.hardState, h.snapshot, fun x hx => ?_⟩
    obtain ⟨e, he, rfl⟩ := List.mem_map.mp hx
    exact hw e he

theorem writeAll_records (disk : Disk (List UInt8)) (rs : List WalRecord) :
    disk.writeAll (rs.map .writeRecord) = { disk with wal := disk.wal ++ rs } := by
  induction rs generalizing disk with
  | nil => simp [Disk.writeAll]
  | cons r rs ih =>
    change (disk.write (.writeRecord r)).writeAll (rs.map .writeRecord) = _
    rw [ih]
    simp [Disk.write]

theorem reads_storable {r : WalRecord} (h : r.Fits ∧ r.Short) :
    Reads (recordReader unmarshalRecord) recordBytes r :=
  reads_record inverts_unmarshalRecord h.1 h.2

theorem torn_stream (rs : List WalRecord) : Torn rs (some (stream recordBytes rs)) :=
  ⟨[], by simp, Reader.read_nil (recordReader unmarshalRecord)⟩

theorem torn_take (rs : List WalRecord) (h : ∀ r ∈ more, r.Fits ∧ r.Short) (m : ℕ) :
    ∃ j, Torn (rs ++ more.take j) (some (stream recordBytes rs ++ (stream recordBytes more).take m)) := by
  obtain ⟨tail, htail, heq⟩ := take_stream (fun r hr => reads_storable (h r hr)) m
  have hfirst := List.prefix_iff_eq_take.mp (wholeWithin_isPrefix recordBytes m more)
  refine ⟨(wholeWithin recordBytes m more).length, tail, ?_, htail⟩
  rw [← hfirst, heq, stream_append, List.append_assoc]

def StoreWrite.replacement : StoreWrite (List UInt8) → Option (String × List UInt8)
  | .saveHardState hs => some (hardStateFile, marshalHardState hs)
  | .writeRecord _ => none
  | .saveSnapshot snap => some (snapshotFile, marshalSnapshot snap)
  | .compact entries => some (walFile, stream recordBytes (entries.map .append))

theorem shows_write (disk : Disk (List UInt8)) {target : String} {content : List UInt8}
    (hw : w.replacement = some (target, content)) :
    IsStoreFile target ∧ (disk.write w).Shows target (some content) ∧
      ∀ a o, IsStoreFile a → a ≠ target → disk.Shows a o → (disk.write w).Shows a o := by
  have hne : hardStateFile ≠ snapshotFile ∧ hardStateFile ≠ walFile ∧ snapshotFile ≠ walFile := by
    decide
  cases w with
  | saveHardState hs =>
    cases hw
    refine ⟨Or.inl rfl, by simp [Disk.Shows, Disk.write], ?_⟩
    intro a o _ hat ho
    simpa [Disk.Shows, Disk.write, hat] using ho
  | writeRecord r => cases hw
  | saveSnapshot snap =>
    cases hw
    refine ⟨Or.inr (Or.inl rfl), by simp [Disk.Shows, Disk.write, hne.1.symm], ?_⟩
    intro a o _ hat ho
    simpa [Disk.Shows, Disk.write, hat] using ho
  | compact entries =>
    cases hw
    refine ⟨Or.inr (Or.inr rfl), ?_, ?_⟩
    · simp only [Disk.Shows, if_neg hne.2.1.symm, if_neg hne.2.2.symm]
      exact torn_stream _
    · rintro a o (rfl | rfl | rfl) hat ho
      · exact ho
      · simpa [Disk.Shows, Disk.write, hne.1.symm] using ho
      · exact absurd rfl hat

theorem shows_wal {o : Option (List UInt8)} : disk.Shows walFile o ↔ Torn disk.wal o := by
  have hne : walFile ≠ hardStateFile ∧ walFile ≠ snapshotFile := by decide
  rw [Disk.Shows, if_neg hne.1, if_neg hne.2]

theorem shows_hardState {o : Option (List UInt8)} :
    disk.Shows hardStateFile o ↔ o = disk.hardState.map marshalHardState := by
  rw [Disk.Shows, if_pos rfl]

theorem shows_snapshot {o : Option (List UInt8)} :
    disk.Shows snapshotFile o ↔ o = disk.snapshot.map marshalSnapshot := by
  have hne : snapshotFile ≠ hardStateFile := by decide
  rw [Disk.Shows, if_neg hne, if_pos rfl]

end Disks

section Names

theorem tempName_ne (name suffix other : String) (hn : IsStoreFile name) (ho : IsStoreFile other) :
    tempName name suffix ≠ other := by
  intro h
  have hlist := congrArg String.toList h
  simp only [tempName, String.toList_append] at hlist
  rcases hn with rfl | rfl | rfl <;> rcases ho with rfl | rfl | rfl <;>
    simp [hardStateFile, snapshotFile, walFile] at hlist

end Names

section Replacing

variable {fs fs' : FileSystem} {disk : Disk (List UInt8)} {d : DirStore} {target suffix : String}
  {bufs : List (List UInt8)} {o : Option (List UInt8)} {loss : Loss} {cl : List Call}

theorem Kept.apart_replace (h : Kept fs disk)
    (hnew : ∀ e, fs'.Possible target e → fs.Possible target e ∨ e = some fs.next)
    (hold : ∀ a e, IsStoreFile a → a ≠ target → fs'.Possible a e → fs.Possible a e)
    {a b : String} {file : ℕ} (ha : IsStoreFile a) (hb : IsStoreFile b) (hne : a ≠ b)
    (hpa : fs'.Possible a (some file)) : ¬fs'.Possible b (some file) := by
  have hcases : ∀ x, IsStoreFile x → fs'.Possible x (some file) →
      fs.Possible x (some file) ∨ x = target ∧ file = fs.next := by
    intro x hx hp
    by_cases hxt : x = target
    · subst hxt
      exact (hnew _ hp).imp_right fun hf => ⟨rfl, Option.some.inj hf⟩
    · exact Or.inl (hold x _ hx hxt hp)
  intro hpb
  rcases hcases a ha hpa with hpa | ⟨rfl, rfl⟩ <;> rcases hcases b hb hpb with hpb | ⟨rfl, hf⟩
  · exact h.apart ha hb hne hpa hpb
  · exact absurd (h.valid a file hpa) (by omega)
  · exact absurd (h.valid b fs.next hpb) (Nat.lt_irrefl _)
  · exact hne rfl

structure Replacing (fs fs' : FileSystem) (target : String) (content : List UInt8) : Prop where
  valid : fs'.Valid
  possible : ∀ e, fs'.Possible target e → fs.Possible target e ∨ e = some fs.next
  others : ∀ a e, IsStoreFile a → a ≠ target → fs'.Possible a e → fs.Possible a e
  survives : ∀ o, fs'.Survives target o → fs.Survives target o ∨ o = some content
  unchanged : ∀ a o, IsStoreFile a → a ≠ target → fs'.Survives a o → fs.Survives a o

theorem replacing (suffix : String) (bufs : List (List UInt8)) (hv : fs.Valid)
    (ht : IsStoreFile target) (k : ℕ) (hclean : ∀ c ∈ cl, c = .remove (tempName target suffix)) :
    Replacing fs (fs.run ((fs.replace (tempName target suffix) target bufs).take k ++ cl)) target
      bufs.flatten := by
  have hne := tempName_ne target suffix target ht ht
  have hspared : ∀ a, IsStoreFile a → a ≠ target →
      ∀ c ∈ (fs.replace (tempName target suffix) target bufs).take k ++ cl, fs.Spares a c :=
    fun a ha hat => FileSystem.replace_spares hv (tempName_ne target suffix a ht ha) hat.symm hclean
  constructor
  · exact hv.run _
  · exact fun e he => FileSystem.possible_replace hv hne k hclean he
  · exact fun a e ha hat he => (FileSystem.run_spared hv (hspared a ha hat)).2.1 e he
  · exact fun o ho => FileSystem.survives_replace hv hne k hclean ho
  · exact fun a o ha hat ho => (FileSystem.run_spared hv (hspared a ha hat)).1 o ho

theorem Kept.crash_replacing (h : Kept fs disk) {w : StoreWrite (List UInt8)} (hf : w.Storable)
    {content : List UInt8} (hw : w.replacement = some (target, content))
    (hr : Replacing fs fs' target content) (loss : Loss) :
    ∃ j, Kept (fs'.crash loss) (disk.writeAll ([w].take j)) := by
  obtain ⟨ht, hnew, hold⟩ := shows_write disk hw
  have hread := FileSystem.survives_read (fs'.crash loss) target
  have hkept : ∀ {disk' : Disk (List UInt8)}, disk'.Storable →
      (∀ a o, IsStoreFile a → a ≠ target → disk.Shows a o → disk'.Shows a o) →
      disk'.Shows target ((fs'.crash loss).read target) → Kept (fs'.crash loss) disk' := by
    intro disk' hstorable hothers htarget
    constructor
    · exact hr.valid.crash loss
    · intro a b file ha hb hab hpa hpb
      exact h.apart_replace hr.possible hr.others ha hb hab (FileSystem.possible_crash hpa)
        (FileSystem.possible_crash hpb)
    · intro a o ha ho
      by_cases hat : a = target
      · subst hat
        rwa [FileSystem.survives_crash_unique ho hread]
      · exact hothers a o ha hat
          (h.shows ha (hr.unchanged a o ha hat (FileSystem.survives_crash ho)))
    · exact hstorable
    · exact List.not_mem_nil
  rcases hr.survives _ (FileSystem.survives_crash hread) with hsame | hdone
  · exact ⟨0, hkept h.storable (fun _ _ _ _ ho => ho) (h.shows ht hsame)⟩
  · refine ⟨1, hkept (h.storable.write hf) hold ?_⟩
    rw [hdone]
    exact hnew

theorem Kept.replaced (h : Kept fs disk) {w : StoreWrite (List UInt8)} (hf : w.Storable)
    (hw : w.replacement = some (target, bufs.flatten)) :
    Kept (fs.run (fs.replace (tempName target suffix) target bufs)) (disk.write w) := by
  obtain ⟨ht, hnew, hold⟩ := shows_write disk hw
  have hne := tempName_ne target suffix target ht ht
  have hr := replacing suffix bufs h.valid ht
    (fs.replace (tempName target suffix) target bufs).length (List.forall_mem_nil _)
  rw [List.take_length, List.append_nil] at hr
  obtain ⟨hentry, hfile, hpast⟩ := FileSystem.run_replace fs hne bufs
  constructor
  · exact hr.valid
  · intro a b file ha hb hab hpa
    exact h.apart_replace hr.possible hr.others ha hb hab hpa
  · intro a o ha ho
    by_cases hat : a = target
    · subst hat
      rw [FileSystem.survives_synced hentry (by rw [hpast]) hfile ho]
      exact hnew
    · exact hold a o ha hat (h.shows ha (hr.unchanged a o ha hat ho))
  · exact h.storable.write hf
  · rw [hpast]
    exact List.not_mem_nil

end Replacing

section Appending

variable {d : DirStore} {disk : Disk (List UInt8)} {rs : List WalRecord}

theorem Ready.not_possible (h : Ready d disk) {a : String} (ha : IsStoreFile a) (hne : a ≠ walFile) :
    ¬d.fs.Possible a (some d.wal) := by
  intro hp
  exact h.kept.apart ha (Or.inr (Or.inr rfl)) hne hp (Or.inl h.entry.symm)

theorem Ready.spares (h : Ready d disk) {a : String} (ha : IsStoreFile a) (hne : a ≠ walFile) :
    ∀ c ∈ d.writeRecords rs ++ d.syncWAL, d.fs.Spares a c := by
  intro c hc
  rcases List.mem_append.mp hc with hc | hc
  · obtain ⟨offset, bytes, rfl⟩ := FileSystem.mem_writes hc
    exact h.not_possible ha hne
  · rw [List.mem_singleton.mp hc]
    trivial

theorem shows_of_ne {a : String} {o : Option (List UInt8)} (ha : IsStoreFile a) (hne : a ≠ walFile)
    (wal : List WalRecord) (h : disk.Shows a o) : ({ disk with wal := wal } : Disk _).Shows a o := by
  rcases ha with rfl | rfl | rfl
  · exact h
  · exact h
  · exact absurd rfl hne

theorem Disk.Storable.append (h : disk.Storable) (hrs : ∀ r ∈ rs, r.Fits ∧ r.Short) :
    ({ disk with wal := disk.wal ++ rs } : Disk _).Storable := by
  refine ⟨h.hardState, h.snapshot, fun r hr => ?_⟩
  rcases List.mem_append.mp hr with hr | hr
  · exact h.records r hr
  · exact hrs r hr

theorem run_take_possible (d : DirStore) (rs : List WalRecord) (k : ℕ) (name : String) :
    (d.fs.run ((d.writeRecords rs ++ d.syncWAL).take k)).Possible name = d.fs.Possible name := by
  have hsame : ∀ (fs : FileSystem) (cs : List Call),
      (∀ c ∈ cs, (∃ offset bytes, c = .write d.wal offset bytes) ∨ c = .sync d.wal) →
      (fs.run cs).Possible name = fs.Possible name := by
    intro fs cs hcs
    induction cs generalizing fs with
    | nil => rfl
    | cons c cs ih =>
      rw [FileSystem.run_cons, ih _ fun x hx => hcs x (List.mem_cons_of_mem c hx)]
      rcases hcs c List.mem_cons_self with ⟨offset, bytes, rfl⟩ | rfl <;> rfl
  apply hsame
  intro c hc
  rcases List.mem_append.mp (List.mem_of_mem_take hc) with hc | hc
  · exact Or.inl (FileSystem.mem_writes hc)
  · exact Or.inr (List.mem_singleton.mp hc)

/-- Interrupted anywhere, some of the records are in the cache or on disk. -/
theorem Ready.run_take (h : Ready d disk) (rs : List WalRecord) (k : ℕ) :
    ∃ k', ∀ name o, (d.fs.run ((d.writeRecords rs ++ d.syncWAL).take k)).Survives name o →
      (d.fs.modify d.wal (·.extend ((rs.map recordBytes).take k'))).Survives name o := by
  rcases LogPrefix.take_append_cons (d.writeRecords rs) [] (.sync d.wal) k with htake | htake
  · refine ⟨k, fun name o ho => ?_⟩
    rw [DirStore.syncWAL, htake, DirStore.writeRecords, FileSystem.take_writes,
      FileSystem.run_writes h.position] at ho
    exact ho
  · refine ⟨rs.length, fun name o ho => ?_⟩
    rw [DirStore.syncWAL, htake, FileSystem.run_append, List.take_nil] at ho
    have hbefore := FileSystem.survives_spared (c := .sync d.wal)
      (h.kept.valid.run (d.writeRecords rs)) trivial ho
    rw [DirStore.writeRecords, FileSystem.run_writes h.position] at hbefore
    rwa [List.take_of_length_le (by simp)]

theorem Ready.torn (h : Ready d disk) (hpast : d.fs.past walFile = [])
    (hrs : ∀ r ∈ rs, r.Fits ∧ r.Short) {k : ℕ} {o : Option (List UInt8)}
    (ho : (d.fs.run ((d.writeRecords rs ++ d.syncWAL).take k)).Survives walFile o) :
    ∃ j, Torn (disk.wal ++ rs.take j) o := by
  obtain ⟨k', hcached⟩ := h.run_take rs k
  obtain ⟨e, he | he, i, n, rfl⟩ := hcached _ _ ho
  swap
  · change e ∈ d.fs.past walFile at he
    rw [hpast] at he
    cases he
  have hentry : e = some d.wal := he.trans h.entry
  subst hentry
  simp only [FileSystem.modify, Option.map_some, Function.update_self]
  rcases File.cut_extend (f := d.fs.files d.wal) ((rs.map recordBytes).take k') i n
    with ⟨i', hold⟩ | ⟨m, hnew⟩
  · refine ⟨0, ?_⟩
    rw [hold, List.take_zero, List.append_nil, ← shows_wal]
    exact h.kept.shows (Or.inr (Or.inr rfl)) ⟨some d.wal, Or.inl h.entry.symm, i', n, rfl⟩
  · have hstream : ((rs.map recordBytes).take k').flatten = stream recordBytes (rs.take k') := by
      rw [← List.map_take]
      rfl
    have hcontent : (d.fs.files d.wal).content = stream recordBytes disk.wal := h.content
    obtain ⟨j, hj⟩ := torn_take disk.wal (fun r hr => hrs r (List.mem_of_mem_take hr)) m
    rw [List.take_take] at hj
    refine ⟨min j k', ?_⟩
    rwa [hnew, hstream, hcontent]

theorem Ready.crash_torn (h : Ready d disk) (hrs : ∀ r ∈ rs, r.Fits ∧ r.Short) (k j : ℕ) (loss : Loss)
    (hj : Torn (disk.wal ++ rs.take j)
      (((d.fs.run ((d.writeRecords rs ++ d.syncWAL).take k)).crash loss).read walFile)) :
    Kept ((d.fs.run ((d.writeRecords rs ++ d.syncWAL).take k)).crash loss)
      { disk with wal := disk.wal ++ rs.take j } := by
  constructor
  · exact (h.kept.valid.run _).crash loss
  · intro a b file ha hb hab hpa hpb
    have hpa := FileSystem.possible_crash hpa
    have hpb := FileSystem.possible_crash hpb
    rw [run_take_possible] at hpa hpb
    exact h.kept.apart ha hb hab hpa hpb
  · intro a o ha ho
    by_cases haw : a = walFile
    · subst haw
      rw [FileSystem.survives_crash_unique ho (FileSystem.survives_read _ _), shows_wal]
      exact hj
    · have hspares : ∀ c ∈ (d.writeRecords rs ++ d.syncWAL).take k, d.fs.Spares a c :=
        fun c hc => h.spares ha haw c (List.mem_of_mem_take hc)
      have hold := (FileSystem.run_spared h.kept.valid hspares).1 o (FileSystem.survives_crash ho)
      exact shows_of_ne ha haw _ (h.kept.shows ha hold)
  · exact h.kept.storable.append fun r hr => hrs r (List.mem_of_mem_take hr)
  · exact List.not_mem_nil

theorem Ready.crash_appending (h : Ready d disk) (hpast : d.fs.past walFile = [])
    (hrs : ∀ r ∈ rs, r.Fits ∧ r.Short) (k : ℕ) (loss : Loss) :
    ∃ j, Kept ((d.fs.run ((d.writeRecords rs ++ d.syncWAL).take k)).crash loss)
      (disk.writeAll ((rs.map .writeRecord).take j)) := by
  obtain ⟨j, hj⟩ := h.torn hpast hrs (FileSystem.survives_crash (FileSystem.survives_read _ _))
  refine ⟨j, ?_⟩
  rw [← List.map_take, writeAll_records]
  exact h.crash_torn hrs k j loss hj

theorem Ready.run_appending (h : Ready d disk) (rs : List WalRecord) :
    d.fs.run (d.writeRecords rs ++ d.syncWAL) =
      (d.fs.modify d.wal (·.extend (rs.map recordBytes))).call (.sync d.wal) := by
  rw [FileSystem.run_append, DirStore.writeRecords, FileSystem.run_writes h.position]
  rfl

theorem Ready.appended (h : Ready d disk) (hpast : d.fs.past walFile = [])
    (hrs : ∀ r ∈ rs, r.Fits ∧ r.Short) :
    Ready ⟨d.fs.run (d.writeRecords rs ++ d.syncWAL), d.wal,
      d.position + (stream recordBytes rs).length⟩ { disk with wal := disk.wal ++ rs } := by
  have hrun := h.run_appending rs
  have hfile : (d.fs.run (d.writeRecords rs ++ d.syncWAL)).files d.wal =
      ⟨d.content ++ stream recordBytes rs, []⟩ := by
    rw [hrun]
    simp only [FileSystem.call, FileSystem.modify, Function.update_self, File.sync,
      File.content_extend]
    rfl
  have hentry : (d.fs.run (d.writeRecords rs ++ d.syncWAL)).entry walFile = some d.wal := by
    rw [hrun]
    exact h.entry
  have hcontent : DirStore.content ⟨d.fs.run (d.writeRecords rs ++ d.syncWAL), d.wal,
      d.position + (stream recordBytes rs).length⟩ = d.content ++ stream recordBytes rs := by
    simp only [DirStore.content, hfile]
    rfl
  refine ⟨?_, hentry, ?_, ?_⟩
  · constructor
    · exact h.kept.valid.run _
    · intro a b file ha hb hab
      have hpossible := run_take_possible d rs (d.writeRecords rs ++ d.syncWAL).length
      rw [List.take_length] at hpossible
      rw [hpossible, hpossible]
      exact h.kept.apart ha hb hab
    · intro a o ha ho
      by_cases haw : a = walFile
      · subst haw
        have hpast' : (d.fs.run (d.writeRecords rs ++ d.syncWAL)).past walFile = [] := by
          rw [hrun]
          exact hpast
        rw [FileSystem.survives_synced hentry hpast' hfile ho, shows_wal, h.content, ← stream_append]
        exact torn_stream _
      · exact shows_of_ne ha haw _
          (h.kept.shows ha ((FileSystem.run_spared h.kept.valid (h.spares ha haw)).1 o ho))
    · exact h.kept.storable.append hrs
    · rw [hrun]
      exact h.kept.fresh
  · rw [hcontent, h.content, stream_append]
  · rw [hcontent, List.length_append, h.position]

end Appending

section Booting

variable {fs : FileSystem} {d : DirStore} {disk : Disk (List UInt8)}

theorem Kept.created (h : Kept fs disk) (hnone : fs.entry walFile = none) :
    Kept (fs.call (.create walFile)) disk := by
  have hempty : disk.wal = [] := by
    have hread := h.shows (Or.inr (Or.inr rfl)) (FileSystem.survives_read fs walFile)
    rwa [FileSystem.read, hnone, shows_wal] at hread
  have hspares : ∀ {a}, a ≠ walFile → fs.Spares a (.create walFile) := fun hne => hne.symm
  have hpossible : ∀ e, (fs.call (.create walFile)).Possible walFile e →
      fs.Possible walFile e ∨ e = some fs.next := by
    intro e he
    rw [FileSystem.call, FileSystem.possible_bind] at he
    exact he.symm
  constructor
  · exact h.valid.call _
  · intro a b file ha hb hab hpa
    exact h.apart_replace hpossible (fun a e _ hne he => FileSystem.possible_spared (hspares hne) he)
      ha hb hab hpa
  · intro a o ha ho
    by_cases haw : a = walFile
    · subst haw
      obtain ⟨e, he, k, n, rfl⟩ := ho
      rcases hpossible e he with hold | rfl
      · refine h.shows ha ⟨e, hold, k, n, ?_⟩
        cases e with
        | none => rfl
        | some file =>
          have hlt := h.valid walFile file hold
          simp [FileSystem.call, FileSystem.bind, Function.update_of_ne (Nat.ne_of_lt hlt)]
      · rw [shows_wal, hempty]
        have hcut : ((fs.call (.create walFile)).files fs.next).cut k n = [] := by
          simp [FileSystem.call, FileSystem.bind, File.cut_empty]
        rw [Option.map_some, hcut]
        exact torn_stream []
    · exact h.shows ha (FileSystem.survives_spared h.valid (hspares haw) ho)
  · exact h.storable
  · simp only [FileSystem.call, FileSystem.bind, Function.update_self, hnone]
    intro hmem
    have hlt := h.valid walFile fs.next (Or.inr (List.mem_of_ne_of_mem (by simp) hmem))
    exact Nat.lt_irrefl _ hlt

theorem Kept.opened (h : Kept fs disk) :
    Kept (DirStore.newFileStore fs).fs disk ∧
      (DirStore.newFileStore fs).fs.entry walFile = some (DirStore.newFileStore fs).wal := by
  cases he : fs.entry walFile with
  | some file =>
    simp only [DirStore.newFileStore, openWAL, he]
    exact ⟨h, trivial⟩
  | none =>
    simp only [DirStore.newFileStore, openWAL, he]
    exact ⟨h.created he, by simp [FileSystem.call, FileSystem.bind]⟩

theorem Kept.torn (h : Kept d.fs disk) (hentry : d.fs.entry walFile = some d.wal) :
    Torn disk.wal (some d.content) := by
  have hread := h.shows (Or.inr (Or.inr rfl)) (FileSystem.survives_read d.fs walFile)
  rwa [FileSystem.read, hentry, shows_wal] at hread

theorem Torn.scan {rs : List WalRecord} {content : List UInt8} (h : Torn rs (some content))
    (hrs : ∀ r ∈ rs, r.Fits ∧ r.Short) :
    (recordReader unmarshalRecord).records content = rs ∧
      (recordReader unmarshalRecord).whole content = stream recordBytes rs := by
  obtain ⟨tail, rfl, htail⟩ := h
  have hscan := scan_stream (R := recordReader unmarshalRecord)
    (fun r hr => reads_storable (hrs r hr)) htail
  have hsplit := (recordReader unmarshalRecord).whole_append_rest (stream recordBytes rs ++ tail)
  rw [Reader.rest, hscan] at hsplit
  exact ⟨by rw [Reader.records, hscan], List.append_cancel_right hsplit⟩

theorem Kept.loadHardState (h : Kept d.fs disk) : d.loadHardState = .ok disk.hardState := by
  have hread := h.shows (Or.inl rfl) (FileSystem.survives_read d.fs hardStateFile)
  rw [shows_hardState] at hread
  rw [DirStore.loadHardState, hread]
  cases hhs : disk.hardState with
  | none => rfl
  | some hs => simp [unmarshal_hardState (h.storable.hardState hs hhs)]

theorem Kept.loadSnapshot (h : Kept d.fs disk) : d.loadSnapshot = .ok disk.snapshot := by
  have hread := h.shows (Or.inr (Or.inl rfl)) (FileSystem.survives_read d.fs snapshotFile)
  rw [shows_snapshot] at hread
  rw [DirStore.loadSnapshot, hread]
  cases hsnap : disk.snapshot with
  | none => rfl
  | some snap =>
    obtain ⟨hindex, hterm⟩ := h.storable.snapshot snap hsnap
    simp [unmarshal_snapshot hindex hterm]

theorem Kept.disk_eq (h : Kept d.fs disk) (hentry : d.fs.entry walFile = some d.wal) :
    d.disk = .ok disk := by
  have hrecords := ((h.torn hentry).scan h.storable.records).1
  rw [DirStore.disk, h.loadHardState, h.loadSnapshot, hrecords]
  rfl

theorem Kept.loadEntries_eq (h : Kept d.fs disk) (hentry : d.fs.entry walFile = some d.wal) :
    d.loadEntries = (Storage.loadEntries disk.wal).map fun entries =>
      (entries, ⟨d.fs.call (.truncate d.wal (stream recordBytes disk.wal).length), d.wal,
        (stream recordBytes disk.wal).length⟩) := by
  obtain ⟨hrecords, hwhole⟩ := (h.torn hentry).scan h.storable.records
  rw [DirStore.loadEntries, FileStore.loadEntries_eq, FileStore.newFileStore, hrecords, hwhole]
  cases Storage.loadEntries disk.wal with
  | error e => rfl
  | ok entries => rfl

theorem Kept.loaded (h : Kept d.fs disk) (hentry : d.fs.entry walFile = some d.wal) :
    Ready ⟨d.fs.call (.truncate d.wal (stream recordBytes disk.wal).length), d.wal,
      (stream recordBytes disk.wal).length⟩ disk := by
  obtain ⟨tail, hcontent, htail⟩ := h.torn hentry
  have hcut : FileOp.apply d.content (.truncate (stream recordBytes disk.wal).length) =
      stream recordBytes disk.wal := by
    simp [FileOp.apply, hcontent]
  have hnew : DirStore.content ⟨d.fs.call (.truncate d.wal (stream recordBytes disk.wal).length),
      d.wal, (stream recordBytes disk.wal).length⟩ = stream recordBytes disk.wal := by
    simp only [DirStore.content, FileSystem.call, FileSystem.modify, Function.update_self,
      File.content_add]
    exact hcut
  refine ⟨?_, hentry, hnew, by rw [hnew]⟩
  constructor
  · exact h.valid.call (.truncate d.wal (stream recordBytes disk.wal).length)
  · exact h.apart
  · intro a o ha ho
    by_cases haw : a = walFile
    · subst haw
      obtain ⟨e, he, k, n, rfl⟩ := ho
      have hp : d.fs.Possible walFile e := he
      by_cases hfile : e = some d.wal
      · subst hfile
        simp only [FileSystem.call, FileSystem.modify, Option.map_some, Function.update_self]
        rcases File.cut_add (d.fs.files d.wal) (.truncate (stream recordBytes disk.wal).length) k n
          with ⟨k', hold⟩ | ⟨_, _, hop, _⟩ | hdone
        · rw [hold]
          exact h.shows ha ⟨some d.wal, hp, k', n, rfl⟩
        · cases hop
        · rw [hdone, shows_wal]
          change Torn disk.wal (some (FileOp.apply d.content _))
          rw [hcut]
          exact torn_stream _
      · refine h.shows ha ⟨e, hp, k, n, ?_⟩
        cases e with
        | none => rfl
        | some file =>
          have hne : file ≠ d.wal := fun heq => hfile (congrArg some heq)
          simp [FileSystem.call, FileSystem.modify, Function.update_of_ne hne]
    · have hspares : d.fs.Spares a (.truncate d.wal (stream recordBytes disk.wal).length) :=
        fun hp => h.apart ha (Or.inr (Or.inr rfl)) haw hp (Or.inl hentry.symm)
      exact h.shows ha (FileSystem.survives_spared h.valid hspares ho)
  · exact h.storable
  · exact h.fresh

theorem Kept.boot (h : Kept fs disk) : (Machine.boot fs).Holds disk := by
  obtain ⟨hkept, hentry⟩ := h.opened
  rw [Machine.boot]
  simp only [hkept.disk_eq hentry, hkept.loadEntries_eq hentry]
  cases hload : Storage.loadEntries disk.wal with
  | error e => exact hkept
  | ok entries => exact hkept.loaded hentry

end Booting

section Runs

variable {m m' : Machine} {e : DirEvent} {disk : Disk (List UInt8)} {d : DirStore} {c : DirCall}
  {suffix : String}

theorem Kept.crash {fs : FileSystem} (h : Kept fs disk) (loss : Loss) : Kept (fs.crash loss) disk := by
  constructor
  · exact h.valid.crash loss
  · intro a b file ha hb hab hpa hpb
    exact h.apart ha hb hab (FileSystem.possible_crash hpa) (FileSystem.possible_crash hpb)
  · intro a o ha ho
    exact h.shows ha (FileSystem.survives_crash ho)
  · exact h.storable
  · exact List.not_mem_nil

theorem calls_cases (d : DirStore) (suffix : String) (c : DirCall) :
    (∃ w target bufs, c.writes = [w] ∧ w.replacement = some (target, bufs.flatten) ∧
      d.calls suffix c = d.fs.replace (tempName target suffix) target bufs ∧
      DirStore.cleanup suffix c = [.remove (tempName target suffix)] ∧ c.records = []) ∨
    (c.writes = c.records.map .writeRecord ∧ DirStore.cleanup suffix c = [] ∧
      (d.calls suffix c = d.writeRecords c.records ++ d.syncWAL ∧ c.records ≠ [] ∨
        d.calls suffix c = [] ∧ c.records = [])) := by
  cases c with
  | saveHardState hs =>
    exact Or.inl ⟨.saveHardState hs, hardStateFile, [marshalHardState hs], rfl,
      by simp [StoreWrite.replacement], rfl, rfl, rfl⟩
  | saveSnapshot snap =>
    exact Or.inl ⟨.saveSnapshot snap, snapshotFile, [marshalSnapshot snap], rfl,
      by simp [StoreWrite.replacement], rfl, rfl, rfl⟩
  | compact entries =>
    refine Or.inl ⟨.compact entries, walFile, entries.map fun e => recordBytes (.append e), rfl, ?_,
      rfl, rfl, rfl⟩
    simp [StoreWrite.replacement, stream, List.flatMap_def, Function.comp_def]
  | appendEntries entries =>
    refine Or.inr ⟨?_, rfl, ?_⟩
    · simp [DirCall.writes, DirCall.records, Storage.appendEntries, Function.comp_def]
    · by_cases hnil : entries = []
      · exact Or.inr ⟨by simp [DirStore.calls, DirStore.appendEntries, hnil], by
          simp [DirCall.records, hnil]⟩
      · exact Or.inl ⟨by simp [DirStore.calls, DirStore.appendEntries, hnil, DirCall.records], by
          simp [DirCall.records, hnil]⟩
  | truncateSuffix start => exact Or.inr ⟨rfl, rfl, Or.inl ⟨rfl, by simp [DirCall.records]⟩⟩

theorem Ready.replaced (h : Ready d disk) {w : StoreWrite (List UInt8)} (hf : w.Storable)
    {target : String} {bufs : List (List UInt8)} (hw : w.replacement = some (target, bufs.flatten))
    (hne : target ≠ walFile) (hwal : (disk.write w).wal = disk.wal) :
    Ready { d with fs := d.fs.run (d.fs.replace (tempName target suffix) target bufs) }
      (disk.write w) := by
  have ht := (shows_write disk hw).1
  have hspares : ∀ c ∈ d.fs.replace (tempName target suffix) target bufs, d.fs.Spares walFile c := by
    intro c hc
    rw [← List.take_length (l := d.fs.replace (tempName target suffix) target bufs),
      ← List.append_nil (List.take _ _)] at hc
    exact FileSystem.replace_spares h.kept.valid
      (tempName_ne target suffix walFile ht (Or.inr (Or.inr rfl))) hne (List.forall_mem_nil _) c hc
  obtain ⟨_, _, hread, hentry⟩ := FileSystem.run_spared h.kept.valid hspares
  have hcontent : DirStore.content
      { d with fs := d.fs.run (d.fs.replace (tempName target suffix) target bufs) } = d.content := by
    rw [FileSystem.read, FileSystem.read, hentry, h.entry] at hread
    exact Option.some.inj hread
  refine ⟨h.kept.replaced hf hw, hentry.trans h.entry, ?_, ?_⟩
  · rw [hcontent, hwal, h.content]
  · rw [hcontent, h.position]

theorem Ready.compacted (h : Ready d disk) {entries : List LogEntry}
    (hf : StoreWrite.Storable (.compact entries)) :
    Ready (d.perform suffix (.compact entries)) (disk.write (.compact entries)) := by
  have hw : StoreWrite.replacement (.compact entries) =
      some (walFile, (entries.map fun e => recordBytes (.append e)).flatten) := by
    simp [StoreWrite.replacement, stream, List.flatMap_def, Function.comp_def]
  have ht : IsStoreFile walFile := Or.inr (Or.inr rfl)
  obtain ⟨hentry, hfile, _⟩ := FileSystem.run_replace d.fs (tempName_ne walFile suffix walFile ht ht)
    (entries.map fun e => recordBytes (.append e))
  have hperform : d.perform suffix (.compact entries) =
      ⟨d.fs.run (d.compact suffix entries), d.fs.next,
        (stream recordBytes (entries.map .append)).length⟩ := by
    simp only [DirStore.perform, DirStore.calls, DirStore.compact, openWAL, hentry, hfile]
    congr 1
    simp [File.content, stream, List.flatMap_def, Function.comp_def]
  have hcontent : DirStore.content ⟨d.fs.run (d.compact suffix entries), d.fs.next,
      (stream recordBytes (entries.map .append)).length⟩ =
        stream recordBytes (entries.map .append) := by
    simp only [DirStore.content, DirStore.compact, hfile]
    simp [File.content, stream, List.flatMap_def, Function.comp_def]
  rw [hperform]
  exact ⟨h.kept.replaced hf hw, hentry, hcontent, by rw [hcontent]⟩

theorem storable_records (hf : c.Fits) : ∀ r ∈ c.records, r.Fits ∧ r.Short := by
  intro r hr
  have hw : .writeRecord r ∈ c.writes := by
    cases c with
    | appendEntries entries =>
      obtain ⟨e, he, rfl⟩ := List.mem_map.mp hr
      exact List.mem_map.mpr ⟨e, he, rfl⟩
    | truncateSuffix start =>
      rw [List.mem_singleton.mp hr]
      exact List.mem_singleton_self _
    | saveHardState hs => cases hr
    | saveSnapshot snap => cases hr
    | compact entries => cases hr
  exact hf _ hw

theorem Ready.performed (h : Ready d disk) (hf : c.Fits)
    (hpast : c.records = [] ∨ d.fs.past walFile = []) :
    Ready (d.perform suffix c) (disk.writeAll c.writes) := by
  have hrs := storable_records hf
  cases c with
  | saveHardState hs =>
    exact h.replaced (hf _ (List.mem_singleton_self _)) (by simp [StoreWrite.replacement]) (by decide)
      rfl
  | saveSnapshot snap =>
    exact h.replaced (hf _ (List.mem_singleton_self _)) (by simp [StoreWrite.replacement]) (by decide)
      rfl
  | compact entries => exact h.compacted (hf _ (List.mem_singleton_self _))
  | appendEntries entries =>
    by_cases hnil : entries = []
    · subst hnil
      exact h
    · have hpast := hpast.resolve_left (by simp [DirCall.records, hnil])
      have happended := h.appended hpast hrs
      have hwrites : disk.writeAll (DirCall.appendEntries entries).writes =
          { disk with wal := disk.wal ++ entries.map .append } := by
        rw [← writeAll_records]
        simp [DirCall.writes, Storage.appendEntries, Function.comp_def]
      rw [hwrites]
      simpa [DirStore.perform, DirStore.calls, DirStore.appendEntries, hnil, DirCall.records]
        using happended
  | truncateSuffix start =>
    have hpast := hpast.resolve_left (by simp [DirCall.records])
    have happended := h.appended hpast hrs
    have hwrites : disk.writeAll (DirCall.truncateSuffix start).writes =
        { disk with wal := disk.wal ++ [.truncate start] } := rfl
    rw [hwrites]
    simpa [DirStore.perform, DirStore.calls, DirStore.truncateSuffix, DirCall.records, stream]
      using happended

theorem Ready.crashed (h : Ready d disk) (hf : c.Fits)
    (hpast : c.records = [] ∨ d.fs.past walFile = []) (k : ℕ) (failed : Bool) (loss : Loss) :
    ∃ j, Kept ((Machine.interrupted d c suffix k failed).crash loss)
      (disk.writeAll (c.writes.take j)) := by
  rcases calls_cases d suffix c with ⟨w, target, bufs, hwrites, hw, hcalls, hclean, _⟩ |
    ⟨hwrites, hclean, hcalls⟩
  · rw [Machine.interrupted, hcalls, hclean, hwrites]
    refine h.kept.crash_replacing (hf w (by simp [hwrites])) hw
      (replacing suffix bufs h.kept.valid (shows_write disk hw).1 k ?_) loss
    intro x hx
    split at hx
    · exact List.mem_singleton.mp hx
    · cases hx
  · have hnone : (if failed then DirStore.cleanup suffix c else []) = [] := by
      rw [hclean, ite_self]
    rw [Machine.interrupted, hnone, List.append_nil, hwrites]
    rcases hcalls with ⟨hcalls, hsome⟩ | ⟨hcalls, _⟩
    · rw [hcalls]
      exact h.crash_appending (hpast.resolve_left hsome) (storable_records hf) k loss
    · refine ⟨0, ?_⟩
      rw [hcalls, List.take_nil]
      exact h.kept.crash loss

/-- One event has the effect of its writes. -/
theorem Machine.Holds.step (h : m.Holds disk) (hok : m.Allowed e) (hstep : m.step e = some m') :
    ∃ ws, e.Writes ws ∧ m'.Holds (disk.writeAll ws) := by
  cases m with
  | off fs =>
    cases e with
    | boot =>
      cases hstep
      exact ⟨[], rfl, Kept.boot h⟩
    | call c suffix => cases hstep
    | crash c suffix k failed loss =>
      cases hstep
      exact ⟨[], ⟨0, rfl⟩, Kept.crash h loss⟩
  | on d =>
    cases e with
    | boot => cases hstep
    | call c suffix =>
      simp only [Machine.step, Option.ite_none_right_eq_some, Option.some.injEq] at hstep
      obtain ⟨_, rfl⟩ := hstep
      exact ⟨c.writes, rfl, Ready.performed h hok.1 hok.2⟩
    | crash c suffix k failed loss =>
      simp only [Machine.step, Option.ite_none_right_eq_some, Option.some.injEq] at hstep
      obtain ⟨_, rfl⟩ := hstep
      obtain ⟨j, hj⟩ := Ready.crashed h hok.1 hok.2 k failed loss
      exact ⟨c.writes.take j, ⟨j, rfl⟩, hj⟩

theorem Machine.Holds.exec (h : m.Holds disk) {es : List DirEvent}
    (hexec : exec Machine.step (fun m e => decide (m.Allowed e)) m es = some m') :
    ∃ parts, List.Forall₂ DirEvent.Writes es parts ∧ m'.Holds (disk.writeAll parts.flatten) := by
  induction es generalizing m disk with
  | nil =>
    cases hexec
    exact ⟨[], .nil, h⟩
  | cons e es ih =>
    simp only [TransitionSystem.exec, Option.ite_none_right_eq_some, decide_eq_true_eq] at hexec
    obtain ⟨hok, hbind⟩ := hexec
    obtain ⟨u, hstep, hrest⟩ := Option.bind_eq_some_iff.mp hbind
    obtain ⟨ws, hws, hu⟩ := h.step hok hstep
    obtain ⟨parts, hparts, hm⟩ := ih hu hrest
    refine ⟨ws :: parts, .cons hws hparts, ?_⟩
    simpa only [List.flatten_cons, Disk.writeAll, List.foldl_append] using hm

theorem kept_empty : Kept .empty (Disk.empty : Disk (List UInt8)) := by
  constructor
  · exact FileSystem.valid_empty
  · intro a b file _ _ _ hp
    rcases hp with hp | hp <;> cases hp
  · intro a o ha ho
    obtain ⟨e, he | he, k, n, rfl⟩ := ho
    · subst he
      rcases ha with rfl | rfl | rfl
      · exact shows_hardState.mpr rfl
      · exact shows_snapshot.mpr rfl
      · exact shows_wal.mpr rfl
    · cases he
  · constructor
    · intro hs h
      cases h
    · intro snap h
      cases h
    · intro r h
      cases h
  · exact List.not_mem_nil

/-- Over any boots, calls and crashes, the files read as the effect of all writes of the calls
that returned and, of each call that was interrupted, of its first ones. -/
theorem loads_see_writes {es : List DirEvent} {fs : FileSystem}
    (h : exec Machine.step (fun m e => decide (m.Allowed e)) (.off .empty) es = some (.off fs)) :
    ∃ parts, List.Forall₂ DirEvent.Writes es parts ∧
      (DirStore.newFileStore fs).disk = .ok (Disk.empty.writeAll parts.flatten) ∧
      (DirStore.newFileStore fs).loadEntries.map Prod.fst =
        Storage.loadEntries (Disk.empty.writeAll parts.flatten).wal := by
  obtain ⟨parts, hparts, hkept⟩ := Machine.Holds.exec (m := .off .empty) kept_empty h
  obtain ⟨hopened, hentry⟩ := Kept.opened hkept
  refine ⟨parts, hparts, hopened.disk_eq hentry, ?_⟩
  rw [hopened.loadEntries_eq hentry]
  cases Storage.loadEntries (Disk.empty.writeAll parts.flatten).wal with
  | error e => rfl
  | ok entries => rfl

def Machine.store : Machine → Option DirStore
  | .off _ => none
  | .on d => some d

def tornRun : List DirEvent :=
  [.boot, .call (.saveHardState ⟨1, "a"⟩) "1", .call (.appendEntries [⟨1, 1, [0x61]⟩]) "",
    .crash (.appendEntries [⟨1, 2, [0x62]⟩]) "" 1 false ⟨fun _ => (0, 12), fun _ => 0⟩,
    .boot, .crash (.compact [⟨1, 1, [0x61]⟩]) "2" 3 true ⟨fun _ => (9, 0), fun _ => 0⟩]

theorem loads_see_writes_torn : ∃ fs,
    exec Machine.step (fun m e => decide (m.Allowed e)) (.off .empty) tornRun = some (.off fs) ∧
    ∃ parts, List.Forall₂ DirEvent.Writes tornRun parts ∧
      (DirStore.newFileStore fs).disk = .ok (Disk.empty.writeAll parts.flatten) ∧
      (DirStore.newFileStore fs).loadEntries.map Prod.fst =
        Storage.loadEntries (Disk.empty.writeAll parts.flatten).wal := by
  have hrun : (exec Machine.step (fun m e => decide (m.Allowed e)) (.off .empty) tornRun).any
      (·.store.isNone) = true := by
    decide +kernel
  obtain ⟨m, hm, hoff⟩ := (Option.any_eq_true _ _).mp hrun
  cases m with
  | off fs => exact ⟨fs, hm, loads_see_writes hm⟩
  | on d => cases hoff

/-- A crash that takes the log file from the directory takes the new records with it. -/
theorem Ready.forgotten (h : Ready d disk) {rs : List WalRecord} (hrs : ∀ r ∈ rs, r.Fits ∧ r.Short)
    (hpast : d.fs.past walFile ≠ []) :
    ∃ loss, Kept ((d.fs.run (d.writeRecords rs ++ d.syncWAL)).crash loss) disk := by
  obtain ⟨e, es, hes⟩ := List.exists_cons_of_ne_nil hpast
  have hold : e ≠ some d.wal := by
    intro heq
    apply h.kept.fresh
    rw [h.entry, hes, heq]
    exact List.mem_cons_self
  let loss : Loss := ⟨fun _ => (0, 0), fun _ => 0⟩
  have hread : ((d.fs.run (d.writeRecords rs ++ d.syncWAL)).crash loss).read walFile =
      e.map fun file => (d.fs.files file).cut 0 0 := by
    have hpast' : (d.fs.run (d.writeRecords rs ++ d.syncWAL)).past walFile = e :: es := by
      rw [h.run_appending]
      exact hes
    simp only [FileSystem.read, FileSystem.crash, loss, hpast', List.getElem?_cons_zero,
      Option.getD_some]
    cases e with
    | none => rfl
    | some file =>
      have hne : file ≠ d.wal := fun heq => hold (congrArg some heq)
      simp [h.run_appending, FileSystem.call, FileSystem.modify, Function.update_of_ne hne,
        File.content]
  have htorn : Torn disk.wal (((d.fs.run (d.writeRecords rs ++ d.syncWAL)).crash loss).read walFile) := by
    rw [hread, ← shows_wal]
    exact h.kept.shows (Or.inr (Or.inr rfl))
      ⟨e, Or.inr (by rw [hes]; exact List.mem_cons_self), 0, 0, rfl⟩
  refine ⟨loss, ?_⟩
  have hkept := h.crash_torn hrs (d.writeRecords rs ++ d.syncWAL).length 0 loss
  rw [List.take_length, List.take_zero, List.append_nil] at hkept
  exact hkept htorn

end Runs

end Storage
