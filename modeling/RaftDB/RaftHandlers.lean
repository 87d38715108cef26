import RaftDB.RaftNode

/-! # RPC receivers

The three request handlers. Each starts with the rule that a later term makes the node a
follower, and a request of an earlier term is answered without further effect. -/
namespace Raft.RaftNode

open Storage

variable {D : Type}

def upToDate (rn : RaftNode D) (args : RequestVoteArgs) : Bool :=
  args.lastLogTerm > rn.log.lastLogTerm ||
    (args.lastLogTerm == rn.log.lastLogTerm && args.lastLogIndex ≥ rn.log.lastLogIndex)

def handleRequestVote (rn : RaftNode D) (args : RequestVoteArgs) :
    Outcome D RequestVoteReply :=
  if rn.stopped then .done rn [] { term := rn.currentTerm }
  else
    let (rn, writes) := rn.adoptTerm args.term
    let reply : RequestVoteReply := { term := rn.currentTerm }
    if args.term < rn.currentTerm then .done rn writes reply
    else if !rn.upToDate args then .done rn writes reply
    else if rn.votedFor = None ∨ rn.votedFor = args.candidateID then
      let rn := { rn with votedFor := args.candidateID }
      .done rn (writes ++ rn.persistLocked) { reply with voteGranted := true }
    else .done rn writes reply

/-- The hint scan: the first index of the run of entries of the term that ends at the
given one, never below the boundary. -/
def firstOfTerm (rn : RaftNode D) (term : ℕ) : ℕ → Option ℕ
  | 0 => some 0
  | n + 1 =>
    if n + 1 > rn.log.base + 1 then
      match rn.log.termAt n with
      | none => none
      | some t => if t = term then firstOfTerm rn term n else some (n + 1)
    else some (n + 1)

def consistencyCheck (rn : RaftNode D) (args : AppendEntriesArgs) :
    Except Panic (Option AppendEntriesReply) :=
  if args.prevLogIndex > rn.log.lastLogIndex then
    .ok (some { term := rn.currentTerm, conflictTerm := 0,
                conflictIndex := rn.log.lastLogIndex + 1 })
  else if args.prevLogIndex ≥ rn.log.base then
    match rn.log.termAt args.prevLogIndex with
    | none => .error .indexOutOfRange
    | some term =>
      if term ≠ args.prevLogTerm then
        match rn.firstOfTerm term args.prevLogIndex with
        | none => .error .indexOutOfRange
        | some first =>
          .ok (some { term := rn.currentTerm, conflictTerm := term, conflictIndex := first })
      else .ok none
  else .ok none

/-- Walk the entries over the log: skip what is there, cut at the first conflict, append
the rest. A conflict with a committed entry ends the process. -/
def appendWalk (rn : RaftNode D) (args : AppendEntriesArgs) : List LogEntry → Outcome D Unit
  | [] => .done rn [] ()
  | e :: rest =>
    if e.index ≤ rn.log.base then appendWalk rn args rest
    else if e.index ≤ rn.log.lastLogIndex then
      match rn.log.termAt e.index with
      | none => ⟨[], .error .indexOutOfRange⟩
      | some term =>
        if term = e.term then appendWalk rn args rest
        else if e.index ≤ rn.commitIndex then
          ⟨[], .error (.truncateCommitted rn.id args.leaderID args.term e.index rn.commitIndex)⟩
        else
          let cut := rn.truncateLogLocked e.index
          match cut.result with
          | .error p => ⟨cut.writes, .error p⟩
          | .ok (rn, _) =>
            let (rn, writes) := rn.appendLogLocked (e :: rest)
            .done rn (cut.writes ++ writes) ()
    else
      let (rn, writes) := rn.appendLogLocked (e :: rest)
      .done rn writes ()

def advanceFollowerCommit (rn : RaftNode D) (args : AppendEntriesArgs) : RaftNode D :=
  if args.leaderCommit > rn.commitIndex then
    let newCommit := min args.leaderCommit (args.prevLogIndex + args.entries.length)
    if newCommit > rn.commitIndex then { rn with commitIndex := newCommit } else rn
  else rn

def acceptEntries (rn : RaftNode D) (args : AppendEntriesArgs) : Outcome D AppendEntriesReply :=
  match rn.consistencyCheck args with
  | .error p => ⟨[], .error p⟩
  | .ok (some reply) => .done rn [] reply
  | .ok none =>
    let walk := rn.appendWalk args args.entries
    match walk.result with
    | .error p => ⟨walk.writes, .error p⟩
    | .ok (rn, _) =>
      .done (rn.advanceFollowerCommit args) walk.writes
        { term := rn.currentTerm, success := true }

def handleAppendEntries (rn : RaftNode D) (args : AppendEntriesArgs) :
    Outcome D AppendEntriesReply :=
  if rn.stopped then .done rn [] { term := rn.currentTerm }
  else
    let (rn, adopted) := rn.adoptTerm args.term
    if args.term < rn.currentTerm then .done rn adopted { term := rn.currentTerm }
    else
      let (rn, followed) := rn.followLeader args.term args.leaderID
      (rn.acceptEntries args).after (adopted ++ followed)

/-- The suffix that survives a snapshot: only if the log has its boundary entry. -/
def retainedSuffix (rn : RaftNode D) (index term : ℕ) : Option (List LogEntry) :=
  if index ≤ rn.log.lastLogIndex ∧ index ≥ rn.log.base then
    match rn.log.termAt index with
    | none => none
    | some t => if t = term then rn.log.entriesFrom (index + 1) else some []
  else some []

/-- The part of `handleInstallSnapshot` behind the term checks. The snapshot becomes
durable before the compacted log does. -/
def acceptSnapshot (rn : RaftNode D) (args : InstallSnapshotArgs D) :
    Outcome D InstallSnapshotReply :=
  let reply : InstallSnapshotReply := { term := rn.currentTerm }
  if args.lastIncludedIndex ≤ rn.commitIndex then .done rn [] reply
  else match rn.retainedSuffix args.lastIncludedIndex args.lastIncludedTerm with
    | none => ⟨[], .error .indexOutOfRange⟩
    | some suffix =>
      let snap := args.snapshot
      let rn := { rn with
        log := ⟨⟨args.lastIncludedTerm, args.lastIncludedIndex, []⟩, suffix⟩
        commitIndex := args.lastIncludedIndex
        pendingSnapshot := some snap }
      .done rn [.saveSnapshot snap, .compact suffix] reply

def handleInstallSnapshot (rn : RaftNode D) (args : InstallSnapshotArgs D) :
    Outcome D InstallSnapshotReply :=
  if rn.stopped then .done rn [] { term := rn.currentTerm }
  else
    let (rn, adopted) := rn.adoptTerm args.term
    if args.term < rn.currentTerm then .done rn adopted { term := rn.currentTerm }
    else
      let (rn, followed) := rn.followLeader args.term args.leaderID
      (rn.acceptSnapshot args).after (adopted ++ followed)

end Raft.RaftNode
