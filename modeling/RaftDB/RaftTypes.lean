import Mathlib.Data.Nat.Notation

/-!
# Raft's domain types

Log entries, RPC arguments and replies, snapshots, and the in-memory log with its
sentinel. Terms and indices are natural numbers; a subtraction that the source performs
on `uint64` without a guard is `uint64Sub`, so that an underflow is visible. Snapshot
contents are opaque to Raft, so their type `D` is a parameter.
-/
namespace Raft

abbrev NodeId := String

/-- No vote cast, or no known leader: configured ids are never empty. -/
def None : NodeId := ""

inductive State where
  | follower
  | candidate
  | leader
  deriving DecidableEq, Repr

structure LogEntry where
  term : ℕ
  index : ℕ
  command : List UInt8
  deriving DecidableEq, Repr

structure HardState where
  currentTerm : ℕ
  votedFor : NodeId
  deriving DecidableEq, Repr

structure Snapshot (D : Type) where
  lastIncludedIndex : ℕ
  lastIncludedTerm : ℕ
  data : D
  deriving DecidableEq, Repr

structure RequestVoteArgs where
  term : ℕ
  candidateID : NodeId
  lastLogIndex : ℕ
  lastLogTerm : ℕ
  deriving DecidableEq, Repr

structure RequestVoteReply where
  term : ℕ
  voteGranted : Bool := false
  deriving DecidableEq, Repr

structure AppendEntriesArgs where
  term : ℕ
  leaderID : NodeId
  prevLogIndex : ℕ
  prevLogTerm : ℕ
  entries : List LogEntry
  leaderCommit : ℕ
  deriving DecidableEq, Repr

structure AppendEntriesReply where
  term : ℕ
  success : Bool := false
  conflictIndex : ℕ := 0
  conflictTerm : ℕ := 0
  deriving DecidableEq, Repr

structure InstallSnapshotArgs (D : Type) where
  term : ℕ
  leaderID : NodeId
  lastIncludedIndex : ℕ
  lastIncludedTerm : ℕ
  offset : ℕ
  data : D
  done : Bool
  deriving DecidableEq, Repr

def InstallSnapshotArgs.snapshot {D : Type} (args : InstallSnapshotArgs D) : Snapshot D :=
  ⟨args.lastIncludedIndex, args.lastIncludedTerm, args.data⟩

structure InstallSnapshotReply where
  term : ℕ
  deriving DecidableEq, Repr

/-- The consumer of committed entries. `none` is an error of the state machine. -/
structure StateMachine (σ D : Type) where
  init : σ
  apply : σ → LogEntry → σ
  snapshot : σ → Option D
  restore : D → Option σ

inductive Panic where
  | truncateCommitted (id leaderID : NodeId) (term index commitIndex : ℕ)
  | indexOutOfRange
  | restoringSnapshot (id : NodeId) (index : ℕ)
  | serializingSnapshot (id : NodeId)
  deriving DecidableEq, Repr

def Panic.refusal : Panic → Bool
  | .truncateCommitted _ _ _ _ _ => true
  | _ => false

def Panic.message : Panic → String
  | .truncateCommitted id leaderID term index commitIndex =>
    "raft " ++ id ++ ": leader " ++ leaderID ++ " (term " ++ toString term ++
      ") asks to truncate committed entry " ++ toString index ++ " (commitIndex " ++
      toString commitIndex ++ ") — Leader Completeness violated"
  | .indexOutOfRange => "runtime error: index out of range"
  | .restoringSnapshot id index => "raft " ++ id ++ ": restoring snapshot at " ++ toString index
  | .serializingSnapshot id => "raft " ++ id ++ ": serializing state machine snapshot"

/-- Subtraction on `uint64`, which wraps around. -/
def uint64Sub (a b : ℕ) : ℕ := if b ≤ a then a - b else UInt64.size - (b - a)

/-- The log slice: slot 0 is the sentinel at the compaction boundary. -/
structure RaftLog where
  sentinel : LogEntry
  entries : List LogEntry
  deriving DecidableEq, Repr

namespace RaftLog

def slots (log : RaftLog) : List LogEntry := log.sentinel :: log.entries

def base (log : RaftLog) : ℕ := log.sentinel.index

def last (log : RaftLog) : LogEntry := log.entries.getLast?.getD log.sentinel

def lastLogIndex (log : RaftLog) : ℕ := log.last.index

def lastLogTerm (log : RaftLog) : ℕ := log.last.term

/-- The term in slot `index - log[0].Index`; `none` when the slot is out of range. -/
def termAt (log : RaftLog) (index : ℕ) : Option ℕ :=
  log.slots[uint64Sub index log.base]?.map LogEntry.term

def entriesFrom (log : RaftLog) (start : ℕ) : Option (List LogEntry) :=
  let pos := uint64Sub start log.base
  if pos ≤ log.slots.length then some (log.slots.drop pos) else none

end RaftLog

end Raft
