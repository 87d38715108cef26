import RaftDB.RaftReplication

/-!
# A running process

A node with its applier goroutine and its state machine. The applier gives up the lock
while it applies a batch, restores a snapshot or serializes the state machine; each of
these is a phase, and any handler may run between two of its steps.
-/
namespace Raft

open Storage

inductive Phase (D : Type) where
  | waiting
  | restoring (snap : Snapshot D)
  | restored (index : ℕ)
  | applying (rest : List LogEntry) (size : ℕ)
  | serializing (snapIndex snapTerm : ℕ)
  | captured (snapIndex snapTerm : ℕ) (data : D)
  deriving DecidableEq, Repr

structure Proc (σ D : Type) where
  node : RaftNode D
  phase : Phase D
  machine : σ

inductive Output (D : Type) where
  | quiet
  | voteReply (reply : RequestVoteReply)
  | appendReply (reply : AppendEntriesReply)
  | snapshotReply (reply : InstallSnapshotReply)
  | requestVotes (args : RequestVoteArgs)
  | round (term : ℕ) (msgs : List RaftNode.Outbound)
  | proposed (appended : Option (ℕ × ℕ))
  | applied (e : LogEntry)
  | restored (data : D)

def Output.Silent {D : Type} : Output D → Prop
  | .requestVotes _ | .round _ _ => False
  | _ => True

inductive Input (D : Type) where
  | start
  | stop
  | electionTimeout
  | propose (command : List UInt8)
  | replicate (term : ℕ)
  | requestVote (args : RequestVoteArgs)
  | appendEntries (args : AppendEntriesArgs)
  | installSnapshot (args : InstallSnapshotArgs D)
  | voteReply (term : ℕ) (reply : RequestVoteReply)
  | appendReply (peer : NodeId) (term : ℕ) (args : AppendEntriesArgs)
      (reply : AppendEntriesReply)
  | snapshotReply (peer : NodeId) (term : ℕ) (args : InstallSnapshotArgs D)
      (reply : InstallSnapshotReply)
  | applier
  deriving DecidableEq, Repr

/-- Durable writes, then the process after the step and its output, or a panic. -/
structure StepOutcome (σ D : Type) where
  writes : List (StoreWrite D)
  result : Except Panic (Proc σ D × Output D)

variable {σ D : Type}

def StepOutcome.output (o : StepOutcome σ D) : Option (Output D) :=
  match o.result with
  | .error _ => none
  | .ok (_, out) => some out

def Output.ofElection : Option RequestVoteArgs → Output D
  | none => .quiet
  | some args => .requestVotes args

def StepOutcome.process (o : StepOutcome σ D) : Option (Proc σ D) :=
  match o.result with
  | .error _ => none
  | .ok (p, _) => some p

def StepOutcome.failure (o : StepOutcome σ D) : Option Panic :=
  match o.result with
  | .error e => some e
  | .ok _ => none

namespace Proc

def boot (M : StateMachine σ D) (rn : RaftNode D) : Proc σ D := ⟨rn, .waiting, M.init⟩

def locked {ρ : Type} (p : Proc σ D) (o : Outcome D ρ) (out : ρ → Output D) : StepOutcome σ D :=
  match o.result with
  | .error e => ⟨o.writes, .error e⟩
  | .ok (rn, r) => ⟨o.writes, .ok ({ p with node := rn }, out r)⟩

theorem locked_writes {ρ : Type} (p : Proc σ D) (o : Outcome D ρ) (out : ρ → Output D) :
    (p.locked o out).writes = o.writes := by
  rw [locked]
  split <;> rfl

def quietly (p : Proc σ D) (out : Output D) : Option (StepOutcome σ D) :=
  some ⟨[], .ok (p, out)⟩

def fails (e : Panic) : Option (StepOutcome σ D) := some ⟨[], .error e⟩

/-- The batch of committed entries beyond `lastApplied`; `none` when a slice is out of
range. -/
def takeBatch (rn : RaftNode D) : Option (List LogEntry) :=
  match rn.log.entriesFrom (rn.lastApplied + 1) with
  | none => none
  | some tail =>
    let size := uint64Sub rn.commitIndex rn.lastApplied
    if size ≤ tail.length then some (tail.take size) else none

/-- The head of the applier's loop: a parked snapshot comes first, then the batch. There is
no step while there is nothing to do. -/
def applierWake (p : Proc σ D) : Option (StepOutcome σ D) :=
  let rn := p.node
  if !rn.started || rn.stopped then none
  else match rn.pendingSnapshot with
    | some snap =>
      let node := { rn with pendingSnapshot := none }
      if snap.lastIncludedIndex > rn.lastApplied then
        quietly { p with node := node, phase := .restoring snap } .quiet
      else quietly { p with node := node } .quiet
    | none =>
      if rn.lastApplied ≥ rn.commitIndex then none
      else match takeBatch rn with
        | none => fails .indexOutOfRange
        | some batch => quietly { p with phase := .applying batch batch.length } .quiet

/-- The first half of `maybeSnapshotLocked`, up to the release of the lock. -/
def maybeSnapshot (rn : RaftNode D) : Except Panic (Phase D) :=
  if rn.cfg.snapshotThreshold = 0 then .ok .waiting
  else if uint64Sub rn.lastApplied rn.log.base < rn.cfg.snapshotThreshold then .ok .waiting
  else match rn.log.termAt rn.lastApplied with
    | none => .error .indexOutOfRange
    | some snapTerm => .ok (.serializing rn.lastApplied snapTerm)

/-- The second half of `maybeSnapshotLocked`, from re-taking the lock on. -/
def saveCaptured (p : Proc σ D) (snapIndex snapTerm : ℕ) (data : D) : StepOutcome σ D :=
  let p := { p with phase := .waiting }
  if snapIndex ≤ p.node.log.base then ⟨[], .ok (p, .quiet)⟩
  else p.locked ((p.node.compactLogLocked snapIndex snapTerm).after
      [.saveSnapshot ⟨snapIndex, snapTerm, data⟩]) (fun _ => .quiet)

def applier (M : StateMachine σ D) (p : Proc σ D) : Option (StepOutcome σ D) :=
  match p.phase with
  | .waiting => p.applierWake
  | .restoring snap =>
    match M.restore snap.data with
    | none => fails (.restoringSnapshot p.node.id snap.lastIncludedIndex)
    | some s =>
      quietly { p with machine := s, phase := .restored snap.lastIncludedIndex }
        (.restored snap.data)
  | .restored index =>
    quietly { p with node := { p.node with lastApplied := index }, phase := .waiting } .quiet
  | .applying (e :: rest) size =>
    quietly { p with machine := M.apply p.machine e, phase := .applying rest size } (.applied e)
  | .applying [] size =>
    let node := { p.node with lastApplied := p.node.lastApplied + size }
    match maybeSnapshot node with
    | .error e => fails e
    | .ok phase => quietly { p with node := node, phase := phase } .quiet
  | .serializing snapIndex snapTerm =>
    match M.snapshot p.machine with
    | none => fails (.serializingSnapshot p.node.id)
    | some data => quietly { p with phase := .captured snapIndex snapTerm data } .quiet
  | .captured snapIndex snapTerm data => some (p.saveCaptured snapIndex snapTerm data)

/-- `Start`: the recovered snapshot goes into the state machine before the applier runs. -/
def start (M : StateMachine σ D) (p : Proc σ D) : Option (StepOutcome σ D) :=
  if p.node.started then none
  else match p.node.initialSnapshotData with
    | none => quietly { p with node := { p.node with started := true } } .quiet
    | some data =>
      match M.restore data with
      | none => none
      | some s =>
        quietly { p with
          node := { p.node with started := true, initialSnapshotData := none }
          machine := s } (.restored data)

def handle (M : StateMachine σ D) (p : Proc σ D) : Input D → Option (StepOutcome σ D)
  | .start => p.start M
  | .stop => quietly { p with node := p.node.stop } .quiet
  | .electionTimeout =>
    if !p.node.started || p.node.state = .leader then none
    else some (p.locked p.node.startElectionLocked Output.ofElection)
  | .propose command => some (p.locked (p.node.propose command) .proposed)
  | .replicate term =>
    match p.node.replicationRound term with
    | .error e => fails e
    | .ok msgs => quietly p (.round term msgs)
  | .requestVote args => some (p.locked (p.node.handleRequestVote args) .voteReply)
  | .appendEntries args => some (p.locked (p.node.handleAppendEntries args) .appendReply)
  | .installSnapshot args => some (p.locked (p.node.handleInstallSnapshot args) .snapshotReply)
  | .voteReply term reply =>
    some (p.locked (p.node.handleRequestVoteReply term reply) fun _ => .quiet)
  | .appendReply peer term args reply =>
    some (p.locked (p.node.handleAppendEntriesReply peer term args reply) fun _ => .quiet)
  | .snapshotReply peer term args reply =>
    some (p.locked (p.node.handleInstallSnapshotReply peer term args reply) fun _ => .quiet)
  | .applier => p.applier M

/-- On the source's type the increments of an election and of `Propose` wrap around. -/
def handleUint64 (M : StateMachine σ D) (p : Proc σ D) : Input D → Option (StepOutcome σ D)
  | .electionTimeout =>
    if !p.node.started || p.node.state = .leader then none
    else some (p.locked p.node.startElectionUint64 Output.ofElection)
  | .propose command => some (p.locked (p.node.proposeUint64 command) .proposed)
  | i => p.handle M i

end Proc

end Raft
