import RaftDB.StorageWal

/-!
# The node

State of one member, its recovery from the stores, and the helpers that every handler
shares. The stores and the state machine are always wired, as the daemon does it; timers
are left out, since any of them may fire at any time. A function that the source runs
under the lock returns the node, its durable writes in order and a result, or the panic
that ended the process after those writes.
-/
namespace Raft

open Storage

/-- Durations are in nanoseconds. -/
structure Config where
  id : NodeId
  peers : List NodeId
  snapshotThreshold : ℕ
  electionTimeoutMin : ℕ
  electionTimeoutMax : ℕ
  heartbeatInterval : ℕ
  rpcTimeout : ℕ
  deriving DecidableEq, Repr

def millisecond : ℕ := 1000000

def Config.withDefaults (c : Config) : Config :=
  { c with
    electionTimeoutMin := if c.electionTimeoutMin = 0 then 150 * millisecond
      else c.electionTimeoutMin
    electionTimeoutMax := if c.electionTimeoutMax = 0 then 300 * millisecond
      else c.electionTimeoutMax
    heartbeatInterval := if c.heartbeatInterval = 0 then 50 * millisecond
      else c.heartbeatInterval
    rpcTimeout := if c.rpcTimeout = 0 then 100 * millisecond else c.rpcTimeout }

/-- What is left of `d` beyond full units, which are powers of ten. -/
def fraction (d unit : ℕ) : String :=
  let kept := ((toString (unit + d % unit)).toList.drop 1).rdropWhile (· = '0')
  if kept = [] then "" else "." ++ String.ofList kept

def durationString (d : ℕ) : String :=
  if d = 0 then "0s"
  else if d < 1000 then toString d ++ "ns"
  else if d < 1000 * 1000 then toString (d / 1000) ++ fraction d 1000 ++ "µs"
  else if d < 1000 * millisecond then toString (d / millisecond) ++ fraction d millisecond ++ "ms"
  else
    let seconds := d / (1000 * millisecond)
    let minutes := seconds / 60
    (if minutes / 60 = 0 then "" else toString (minutes / 60) ++ "h") ++
      (if minutes = 0 then "" else toString (minutes % 60) ++ "m") ++
      toString (seconds % 60) ++ fraction d (1000 * millisecond) ++ "s"

example : [150000000, 1500, 5400000000000, 90500000000].map durationString =
    ["150ms", "1.5µs", "1h30m0s", "1m30.5s"] := by decide +kernel

inductive NewNodeError where
  | missingID
  | timeoutRange
  | heartbeatTooSlow (heartbeatInterval electionTimeoutMin : ℕ)
  | loadingLog (err : LoadError)
  | notContiguous (got want : ℕ)
  deriving DecidableEq, Repr

def NewNodeError.message : NewNodeError → String
  | .missingID => "raft: config.ID is required"
  | .timeoutRange => "raft: ElectionTimeoutMin > ElectionTimeoutMax"
  | .heartbeatTooSlow heartbeat timeout => "raft: HeartbeatInterval (" ++
      durationString heartbeat ++ ") must be well below ElectionTimeoutMin (" ++
      durationString timeout ++ ")"
  | .loadingLog err => "raft: loading log: " ++ err.message
  | .notContiguous got want => "raft: recovered log is not contiguous: got index " ++
      toString got ++ ", want " ++ toString want

structure RaftNode (D : Type) where
  cfg : Config
  currentTerm : ℕ
  votedFor : NodeId
  log : RaftLog
  commitIndex : ℕ
  lastApplied : ℕ
  nextIndex : NodeId → ℕ
  matchIndex : NodeId → ℕ
  state : State
  leaderID : NodeId
  /-- The vote counter of the running election. -/
  votes : ℕ
  pendingSnapshot : Option (Snapshot D)
  initialSnapshotData : Option D
  started : Bool
  stopped : Bool

/-- The durable writes of a locked section, then its result and node, or a panic. -/
structure Outcome (D ρ : Type) where
  writes : List (StoreWrite D)
  result : Except Panic (RaftNode D × ρ)

variable {D ρ : Type}

def Outcome.done (rn : RaftNode D) (writes : List (StoreWrite D)) (r : ρ) : Outcome D ρ :=
  ⟨writes, .ok (rn, r)⟩

def Outcome.after (o : Outcome D ρ) (writes : List (StoreWrite D)) : Outcome D ρ :=
  ⟨writes ++ o.writes, o.result⟩

/-- Keep the recovered entries above the boundary; they must be gap-free. -/
def recoverEntries (base : ℕ) : ℕ → List LogEntry → Except NewNodeError (List LogEntry)
  | _, [] => .ok []
  | want, e :: es =>
    if e.index ≤ base then recoverEntries base want es
    else if e.index ≠ want then .error (.notContiguous e.index want)
    else match recoverEntries base (want + 1) es with
      | .error err => .error err
      | .ok rest => .ok (e :: rest)

def checkConfig (cfg : Config) : Option NewNodeError :=
  if cfg.id = "" then some .missingID
  else if cfg.electionTimeoutMin > cfg.electionTimeoutMax then some .timeoutRange
  else if cfg.heartbeatInterval ≥ cfg.electionTimeoutMin then
    some (.heartbeatTooSlow cfg.heartbeatInterval cfg.electionTimeoutMin)
  else none

def boundary (snap : Option (Snapshot D)) : LogEntry :=
  match snap with
  | none => ⟨0, 0, []⟩
  | some s => ⟨s.lastIncludedTerm, s.lastIncludedIndex, []⟩

def loadedNode (cfg : Config) (hardState : Option HardState) (snap : Option (Snapshot D))
    (entries : List LogEntry) : RaftNode D :=
  let hs := hardState.getD ⟨0, None⟩
  let sentinel := boundary snap
  { cfg := cfg.withDefaults
    currentTerm := hs.currentTerm
    votedFor := hs.votedFor
    log := ⟨sentinel, entries⟩
    commitIndex := sentinel.index
    lastApplied := sentinel.index
    nextIndex := fun _ => 0
    matchIndex := fun _ => 0
    state := .follower
    leaderID := None
    votes := 0
    pendingSnapshot := none
    initialSnapshotData := snap.map Snapshot.data
    started := false
    stopped := false }

/-- `NewNode` on the results of its reads; `recover` is its loop over the loaded entries. -/
def newNodeFrom (cfg : Config) (hardState : Option HardState) (snap : Option (Snapshot D))
    (load : Except LoadError (List LogEntry))
    (recover : ℕ → List LogEntry → Except NewNodeError (List LogEntry)) :
    Except NewNodeError (RaftNode D) :=
  match checkConfig cfg.withDefaults with
  | some err => .error err
  | none =>
    match load with
    | .error err => .error (.loadingLog err)
    | .ok loaded =>
      match recover (boundary snap).index loaded with
      | .error err => .error err
      | .ok entries => .ok (loadedNode cfg hardState snap entries)

def newNode (cfg : Config) (disk : Disk D) : Except NewNodeError (RaftNode D) :=
  newNodeFrom cfg disk.hardState disk.snapshot (loadEntries disk.wal) fun base =>
    recoverEntries base (base + 1)

def recoverEntriesUint64 (base : ℕ) : ℕ → List LogEntry → Except NewNodeError (List LogEntry)
  | _, [] => .ok []
  | want, e :: es =>
    if e.index ≤ base then recoverEntriesUint64 base want es
    else if e.index ≠ want then .error (.notContiguous e.index want)
    else match recoverEntriesUint64 base ((want + 1) % UInt64.size) es with
      | .error err => .error err
      | .ok rest => .ok (e :: rest)

/-- `NewNode` with the arithmetic of the source's type. -/
def newNodeUint64 (cfg : Config) (disk : Disk D) : Except NewNodeError (RaftNode D) :=
  newNodeFrom cfg disk.hardState disk.snapshot (loadEntriesUint64 disk.wal) fun base =>
    recoverEntriesUint64 base ((base + 1) % UInt64.size)

theorem newNodeFrom_ok {cfg : Config} {hs : Option HardState}
    {snap : Option (Snapshot D)} {load : Except LoadError (List LogEntry)}
    {recover : ℕ → List LogEntry → Except NewNodeError (List LogEntry)} {rn : RaftNode D} :
    newNodeFrom cfg hs snap load recover = .ok rn ↔
      checkConfig cfg.withDefaults = none ∧ ∃ loaded entries, load = .ok loaded ∧
        recover (boundary snap).index loaded = .ok entries ∧
          rn = loadedNode cfg hs snap entries := by
  constructor
  · intro h
    unfold newNodeFrom at h
    split at h
    · cases h
    rename_i hcfg
    split at h
    · cases h
    rename_i loaded
    split at h
    · cases h
    rename_i entries hrec
    cases h
    exact ⟨hcfg, loaded, entries, rfl, hrec, rfl⟩
  · rintro ⟨hcfg, loaded, entries, rfl, hrec, rfl⟩
    simp only [newNodeFrom, hcfg, hrec]

theorem newNode_eq {cfg : Config} {disk : Disk D} {rn : RaftNode D}
    (h : newNode cfg disk = .ok rn) :
    ∃ entries, rn = loadedNode cfg disk.hardState disk.snapshot entries := by
  obtain ⟨_, _, entries, _, _, rfl⟩ := newNodeFrom_ok.mp h
  exact ⟨entries, rfl⟩

namespace RaftNode

def id (rn : RaftNode D) : NodeId := rn.cfg.id

def peers (rn : RaftNode D) : List NodeId := rn.cfg.peers

def quorum (rn : RaftNode D) : ℕ := (rn.peers.length + 1) / 2 + 1

def persistLocked (rn : RaftNode D) : List (StoreWrite D) :=
  [.saveHardState ⟨rn.currentTerm, rn.votedFor⟩]

def becomeFollowerLocked (rn : RaftNode D) (term : ℕ) : RaftNode D × List (StoreWrite D) :=
  if term > rn.currentTerm then
    let rn := { rn with currentTerm := term, votedFor := None, leaderID := None }
    ({ rn with state := .follower }, rn.persistLocked)
  else ({ rn with state := .follower }, [])

def appendLogLocked (rn : RaftNode D) (entries : List LogEntry) :
    RaftNode D × List (StoreWrite D) :=
  ({ rn with log := ⟨rn.log.sentinel, rn.log.entries ++ entries⟩ }, appendEntries entries)

/-- The slice `log[:start - log[0].Index]`, never without its sentinel. -/
def truncateLogLocked (rn : RaftNode D) (start : ℕ) : Outcome D Unit :=
  let pos := uint64Sub start rn.log.base
  if 1 ≤ pos ∧ pos ≤ rn.log.slots.length then
    .done { rn with log := ⟨rn.log.sentinel, rn.log.entries.take (pos - 1)⟩ }
      (truncateSuffix start) ()
  else ⟨truncateSuffix start, .error .indexOutOfRange⟩

def compactLogLocked (rn : RaftNode D) (index term : ℕ) : Outcome D Unit :=
  if index ≤ rn.log.base then .done rn [] ()
  else
    match (if index < rn.log.lastLogIndex then rn.log.entriesFrom (index + 1) else some []) with
    | none => ⟨[], .error .indexOutOfRange⟩
    | some suffix =>
      .done { rn with log := ⟨⟨term, index, []⟩, suffix⟩ } [.compact suffix] ()

def adoptTerm (rn : RaftNode D) (term : ℕ) : RaftNode D × List (StoreWrite D) :=
  if term > rn.currentTerm then rn.becomeFollowerLocked term else (rn, [])

def followLeader (rn : RaftNode D) (term : ℕ) (leaderID : NodeId) :
    RaftNode D × List (StoreWrite D) :=
  let (rn, writes) := if rn.state ≠ .follower then rn.becomeFollowerLocked term else (rn, [])
  ({ rn with leaderID := leaderID }, writes)

def replicatedOn (rn : RaftNode D) (n : ℕ) : ℕ :=
  1 + (rn.peers.filter (fun peer => n ≤ rn.matchIndex peer)).length

def commitScan (rn : RaftNode D) : ℕ → Except Panic ℕ
  | 0 => .ok rn.commitIndex
  | n + 1 =>
    if n + 1 ≤ rn.commitIndex then .ok rn.commitIndex
    else match rn.log.termAt (n + 1) with
      | none => .error .indexOutOfRange
      | some term =>
        if term ≠ rn.currentTerm then .ok rn.commitIndex
        else if rn.replicatedOn (n + 1) ≥ rn.quorum then .ok (n + 1)
        else commitScan rn n

def advanceCommitIndexLocked (rn : RaftNode D) : Except Panic (RaftNode D) :=
  if rn.state ≠ .leader then .ok rn
  else match rn.commitScan rn.log.lastLogIndex with
    | .error p => .error p
    | .ok n => .ok { rn with commitIndex := n }

/-- `Propose` with the given index for the new entry. `none` is the error for a node that is
not the leader. -/
def proposeAt (rn : RaftNode D) (index : ℕ) (command : List UInt8) :
    Outcome D (Option (ℕ × ℕ)) :=
  if rn.state ≠ .leader then .done rn [] none
  else
    let term := rn.currentTerm
    let (rn, writes) := rn.appendLogLocked [⟨term, index, command⟩]
    match rn.advanceCommitIndexLocked with
    | .error p => ⟨writes, .error p⟩
    | .ok rn => .done rn writes (some (index, term))

/-- Indices are not bounded here; `proposeUint64` is the same on the source's type. -/
def propose (rn : RaftNode D) (command : List UInt8) : Outcome D (Option (ℕ × ℕ)) :=
  rn.proposeAt (rn.log.lastLogIndex + 1) command

/-- The sum `lastLogIndex() + 1` on a `uint64`, which wraps around. -/
def proposeUint64 (rn : RaftNode D) (command : List UInt8) : Outcome D (Option (ℕ × ℕ)) :=
  rn.proposeAt ((rn.log.lastLogIndex + 1) % UInt64.size) command

def stop (rn : RaftNode D) : RaftNode D := { rn with stopped := true }

end RaftNode

end Raft
