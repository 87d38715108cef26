import RaftDB.RaftTypes
import Mathlib.Data.List.DropRight
import Mathlib.Data.List.Basic

/-!
# The file store

The three files of one node: hard state, write-ahead log and snapshot. The log is a
stream of append and truncate records that is replayed on load; the other two are
replaced as a whole. A handler's store calls are a list of writes, so that a crash
inside the handler is a cut of that list.
-/
namespace Storage

open Raft

inductive WalRecord where
  | append (e : LogEntry)
  | truncate (start : ℕ)
  | unknown (type : String)
  deriving DecidableEq, Repr

inductive LoadError where
  | outOfOrder (got want : ℕ)
  | truncateFrom (start : ℕ)
  | unknownRecord (type : String)
  deriving DecidableEq, Repr

def LoadError.message : LoadError → String
  | .outOfOrder got want => "storage: wal append record out of order: got index " ++
      toString got ++ ", want " ++ toString want
  | .truncateFrom start => "storage: wal truncate record with from=" ++ toString start
  | .unknownRecord type => "storage: unknown wal record type " ++ type.quote

/-- Zero stands for any starting index. -/
def nextIndex (entries : List LogEntry) : ℕ :=
  match entries.getLast? with
  | none => 0
  | some e => e.index + 1

def replayRecord (entries : List LogEntry) : WalRecord → Except LoadError (List LogEntry)
  | .append e =>
    let want := nextIndex entries
    if want ≠ 0 ∧ e.index ≠ want then .error (.outOfOrder e.index want)
    else .ok (entries ++ [e])
  | .truncate start =>
    if start < 1 then .error (.truncateFrom start)
    else .ok (entries.rdropWhile (fun e => start ≤ e.index))
  | .unknown type => .error (.unknownRecord type)

def replay (entries : List LogEntry) : List WalRecord → Except LoadError (List LogEntry)
  | [] => .ok entries
  | r :: rs =>
    match replayRecord entries r with
    | .error e => .error e
    | .ok es => replay es rs

def loadEntries (wal : List WalRecord) : Except LoadError (List LogEntry) := replay [] wal

def nextIndexUint64 (entries : List LogEntry) : ℕ := nextIndex entries % UInt64.size

def replayRecordUint64 (entries : List LogEntry) : WalRecord → Except LoadError (List LogEntry)
  | .append e =>
    let want := nextIndexUint64 entries
    if want ≠ 0 ∧ e.index ≠ want then .error (.outOfOrder e.index want)
    else .ok (entries ++ [e])
  | r => replayRecord entries r

def loadEntriesUint64 (wal : List WalRecord) : Except LoadError (List LogEntry) :=
  wal.foldlM replayRecordUint64 []

/-- The files of one node's directory; `none` is a file that was never written. -/
structure Disk (D : Type) where
  hardState : Option HardState
  wal : List WalRecord
  snapshot : Option (Snapshot D)
  deriving DecidableEq, Repr

def Disk.empty {D : Type} : Disk D := ⟨none, [], none⟩

/-- One durable step: a whole-file replacement, or one record at the end of the log. -/
inductive StoreWrite (D : Type) where
  | saveHardState (hs : HardState)
  | writeRecord (r : WalRecord)
  | saveSnapshot (snap : Snapshot D)
  | compact (entries : List LogEntry)
  deriving DecidableEq, Repr

variable {D : Type}

def Disk.write (d : Disk D) : StoreWrite D → Disk D
  | .saveHardState hs => { d with hardState := some hs }
  | .writeRecord r => { d with wal := d.wal ++ [r] }
  | .saveSnapshot snap => { d with snapshot := some snap }
  | .compact entries => { d with wal := entries.map .append }

def Disk.writeAll (d : Disk D) (ws : List (StoreWrite D)) : Disk D := ws.foldl Disk.write d

def appendEntries (entries : List LogEntry) : List (StoreWrite D) :=
  entries.map (fun e => .writeRecord (.append e))

def truncateSuffix (start : ℕ) : List (StoreWrite D) := [.writeRecord (.truncate start)]

end Storage
