import RaftDB.RaftHandlers
import Mathlib.Logic.Function.Basic

/-!
# Elections and the leader's side of replication

What a node does on its own account, an election start or a replication round, and the
sections that run when a reply to one of its calls arrives. Each of the latter gets what
its closure captured: the term of the election or round, and the request.
-/
namespace Raft.RaftNode

open Storage

variable {D : Type}

def becomeLeaderLocked (rn : RaftNode D) : RaftNode D :=
  { rn with
    state := .leader
    leaderID := rn.id
    nextIndex := fun peer => if peer ∈ rn.peers then rn.log.lastLogIndex + 1 else 0
    matchIndex := fun _ => 0 }

def startElectionIn (rn : RaftNode D) (term : ℕ) : Outcome D (Option RequestVoteArgs) :=
  let rn := { rn with
    state := .candidate
    currentTerm := term
    votedFor := rn.id
    leaderID := None
    votes := 1 }
  let writes := rn.persistLocked
  if rn.votes ≥ rn.quorum then .done rn.becomeLeaderLocked writes none
  else .done rn writes (some
    { term := rn.currentTerm
      candidateID := rn.id
      lastLogIndex := rn.log.lastLogIndex
      lastLogTerm := rn.log.lastLogTerm })

/-- Terms are not bounded here; `startElectionUint64` is the same on the source's type. -/
def startElectionLocked (rn : RaftNode D) : Outcome D (Option RequestVoteArgs) :=
  rn.startElectionIn (rn.currentTerm + 1)

/-- The increment `currentTerm++` on a `uint64`, which wraps around. -/
def startElectionUint64 (rn : RaftNode D) : Outcome D (Option RequestVoteArgs) :=
  rn.startElectionIn ((rn.currentTerm + 1) % UInt64.size)

def handleRequestVoteReply (rn : RaftNode D) (term : ℕ) (reply : RequestVoteReply) :
    Outcome D Unit :=
  if rn.stopped then .done rn [] ()
  else if reply.term > rn.currentTerm then
    let (rn, writes) := rn.becomeFollowerLocked reply.term
    .done rn writes ()
  else if rn.state ≠ .candidate ∨ rn.currentTerm ≠ term then .done rn [] ()
  else if reply.voteGranted then
    let rn := { rn with votes := rn.votes + 1 }
    if rn.votes = rn.quorum then .done rn.becomeLeaderLocked [] () else .done rn [] ()
  else .done rn [] ()

inductive Outbound where
  | append (peer : NodeId) (args : AppendEntriesArgs)
  | snapshot (peer : NodeId)
  deriving DecidableEq, Repr

/-- What one round sends to one peer; `none` when a slot is out of range. -/
def outboundTo (rn : RaftNode D) (term : ℕ) (peer : NodeId) : Option Outbound :=
  let next := rn.nextIndex peer
  if next ≤ rn.log.base then some (.snapshot peer)
  else
    let prevIndex := next - 1
    match rn.log.termAt prevIndex, rn.log.entriesFrom next with
    | some prevTerm, some entries => some (.append peer
        { term := term
          leaderID := rn.id
          prevLogIndex := prevIndex
          prevLogTerm := prevTerm
          entries := entries
          leaderCommit := rn.commitIndex })
    | _, _ => none

def replicationRound (rn : RaftNode D) (term : ℕ) : Except Panic (List Outbound) :=
  if rn.state ≠ .leader ∨ rn.currentTerm ≠ term then .ok []
  else match rn.peers.mapM (rn.outboundTo term) with
    | none => .error .indexOutOfRange
    | some msgs => .ok msgs

/-- From the end of the log: one past the last entry of the conflict term. The scan stops
at an entry of an earlier term. -/
def lastOfTerm (conflictTerm : ℕ) : List LogEntry → Option ℕ
  | [] => none
  | e :: es =>
    if e.term = conflictTerm then some (e.index + 1)
    else if e.term < conflictTerm then none
    else lastOfTerm conflictTerm es

def nextIndexAfterRejection (log : RaftLog) (prevLogIndex : ℕ) (reply : AppendEntriesReply) :
    ℕ :=
  if reply.conflictTerm = 0 then
    if reply.conflictIndex ≥ 1 then reply.conflictIndex
    else if prevLogIndex ≥ 1 then prevLogIndex
    else 1
  else (lastOfTerm reply.conflictTerm log.entries.reverse).getD reply.conflictIndex

def handleAppendEntriesReply (rn : RaftNode D) (peer : NodeId) (term : ℕ)
    (args : AppendEntriesArgs) (reply : AppendEntriesReply) : Outcome D Unit :=
  if rn.stopped then .done rn [] ()
  else if reply.term > rn.currentTerm then
    let (rn, writes) := rn.becomeFollowerLocked reply.term
    .done rn writes ()
  else if rn.state ≠ .leader ∨ rn.currentTerm ≠ term then .done rn [] ()
  else if reply.success then
    let matched := args.prevLogIndex + args.entries.length
    if matched > rn.matchIndex peer then
      let rn := { rn with
        matchIndex := Function.update rn.matchIndex peer matched
        nextIndex := Function.update rn.nextIndex peer (matched + 1) }
      match rn.advanceCommitIndexLocked with
      | .error p => ⟨[], .error p⟩
      | .ok rn => .done rn [] ()
    else .done rn [] ()
  else
    let next := nextIndexAfterRejection rn.log args.prevLogIndex reply
    if next < rn.nextIndex peer then
      .done { rn with nextIndex := Function.update rn.nextIndex peer next } [] ()
    else .done rn [] ()

/-- The request of `sendSnapshot`: whatever snapshot is on disk when it loads, stamped with
the term of the round that launched it. -/
def snapshotRequest (id : NodeId) (term : ℕ) (snap : Snapshot D) : InstallSnapshotArgs D :=
  { term := term
    leaderID := id
    lastIncludedIndex := snap.lastIncludedIndex
    lastIncludedTerm := snap.lastIncludedTerm
    offset := 0
    data := snap.data
    done := true }

def handleInstallSnapshotReply (rn : RaftNode D) (peer : NodeId) (term : ℕ)
    (args : InstallSnapshotArgs D) (reply : InstallSnapshotReply) : Outcome D Unit :=
  if rn.stopped then .done rn [] ()
  else if reply.term > rn.currentTerm then
    let (rn, writes) := rn.becomeFollowerLocked reply.term
    .done rn writes ()
  else if rn.state ≠ .leader ∨ rn.currentTerm ≠ term then .done rn [] ()
  else if args.lastIncludedIndex > rn.matchIndex peer then
    .done { rn with
      matchIndex := Function.update rn.matchIndex peer args.lastIncludedIndex
      nextIndex := Function.update rn.nextIndex peer (args.lastIncludedIndex + 1) } [] ()
  else .done rn [] ()

end Raft.RaftNode
