import RaftDB.KvStore
import RaftDB.RaftLeaderCompleteness

/-!
# The client-facing server

A call of `propose` appends its command, registers a waiter under the index, and waits for a
value on its channel or for its context to end. `Apply` first changes the store, then takes
the waiter of the index out of the map, then sends on its channel; the map has a lock of its
own, and any other goroutine may run in between. Calls and maps live in one incarnation of
the process.
-/
namespace Kv

open Raft ClusterConfig TransitionSystem Function

inductive Answer where
  | ok
  | notLeader
  | contextDone
  | refused (err : KvError)
  deriving DecidableEq, Repr

structure Waiter where
  term : ℕ
  ch : ℕ
  deriving DecidableEq, Repr

/-- Where the applier goroutine stands in `Apply`, behind the change of the store. -/
inductive Firing where
  | idle
  | taking (entry : LogEntry)
  | sending (ch : ℕ) (answer : Answer)
  deriving DecidableEq, Repr

structure Server where
  waiters : ℕ → Option Waiter
  firing : Firing

def Server.new : Server := ⟨fun _ => none, .idle⟩

inductive Stage where
  | proposed
  | waiting
  | givingUp
  | returned (answer : Answer)
  deriving DecidableEq, Repr

/-- A call of `propose`. Its channel is a buffer for one value, named by the place of the
call in the list of all calls. -/
structure Proposal where
  node : NodeId
  incarnation : ℕ
  cmd : Command
  data : List UInt8
  appended : Option (ℕ × ℕ)
  stage : Stage
  ch : Option Answer
  deriving DecidableEq, Repr

/-- The cluster below the servers; its stores are audited. -/
abbrev RaftSystem := System (Store × List LogEntry) (List UInt8 × List LogEntry)

abbrev RaftEvent := Raft.Event (List UInt8 × List LogEntry)

structure KvSystem where
  raft : RaftSystem
  servers : NodeId → Server
  proposals : List Proposal

inductive KvEvent where
  | raft (e : RaftEvent)
  | applier (n : NodeId)
  | take (n : NodeId)
  | send (n : NodeId)
  | propose (n : NodeId) (cmd : Command)
  | register (k : ℕ)
  | receive (k : ℕ)
  | expire (k : ℕ)
  | giveUp (k : ℕ)

/-- The events that are steps of the servers have names of their own. -/
def direct : RaftEvent → Bool
  | .act _ (.propose _) => false
  | .act _ .applier => false
  | _ => true

namespace KvSystem

def init : KvSystem := ⟨System.init, fun _ => .new, []⟩

def running (s : KvSystem) (p : Proposal) : Bool :=
  (s.raft.hosts p.node).proc.isSome && (s.raft.hosts p.node).incarnation = p.incarnation

/-- Put a value into the channel of a call; `none` while the buffer is full. -/
def sendTo (s : KvSystem) (k : ℕ) (answer : Answer) : Option KvSystem :=
  match s.proposals[k]? with
  | none => none
  | some p =>
    match p.ch with
    | some _ => none
    | none => some { s with proposals := s.proposals.set k { p with ch := some answer } }

def setServer (s : KvSystem) (n : NodeId) (server : Server) : KvSystem :=
  { s with servers := update s.servers n server }

def stepRaft (json : Json) (c : ValidCluster) (settings : NodeId → Config) (s : KvSystem)
    (e : RaftEvent) : Option KvSystem :=
  match s.raft.step (stateMachine json).audited c settings e with
  | none => none
  | some raft =>
    match e with
    | .boot n => some { s with raft := raft, servers := update s.servers n .new }
    | _ => some { s with raft := raft }

/-- One step of the applier; if it hands over an entry, `Apply` goes on from there. -/
def stepApplier (json : Json) (s : KvSystem) (n : NodeId) : Option KvSystem :=
  let server := s.servers n
  if server.firing ≠ .idle then none
  else match s.raft.run (stateMachine json).audited n .applier with
    | none => none
    | some (raft, some (.applied e)) =>
      some ({ s with raft := raft }.setServer n { server with firing := .taking e })
    | some (raft, _) => some { s with raft := raft }

/-- The first half of `fireWaiter`: take the waiter out of the map, and compare terms. -/
def takeWaiter (s : KvSystem) (n : NodeId) : Option KvSystem :=
  let server := s.servers n
  if (s.raft.hosts n).proc.isNone then none
  else match server.firing with
    | .taking e =>
      match server.waiters e.index with
      | none => some (s.setServer n { server with firing := .idle })
      | some w => some (s.setServer n
          { waiters := update server.waiters e.index none
            firing := .sending w.ch (if w.term = e.term then .ok else .notLeader) })
    | _ => none

def sendWaiter (s : KvSystem) (n : NodeId) : Option KvSystem :=
  let server := s.servers n
  if (s.raft.hosts n).proc.isNone then none
  else match server.firing with
    | .sending ch answer => (s.setServer n { server with firing := .idle }).sendTo ch answer
    | _ => none

/-- A call of `propose`, up to the return of the node's `Propose`. -/
def submit (json : Json) (s : KvSystem) (n : NodeId) (cmd : Command) : Option KvSystem :=
  let h := s.raft.hosts n
  if h.proc.isNone then none
  else match cmd.encode json with
    | .error err => some { s with proposals := s.proposals ++
        [⟨n, h.incarnation, cmd, [], none, .returned (.refused err), none⟩] }
    | .ok data =>
      match s.raft.run (stateMachine json).audited n (.propose data) with
      | some (raft, some (.proposed (some appended))) =>
        some { s with
          raft := raft
          proposals := s.proposals ++
            [⟨n, h.incarnation, cmd, data, some appended, .proposed, none⟩] }
      | some (raft, some (.proposed none)) =>
        some { s with
          raft := raft
          proposals := s.proposals ++
            [⟨n, h.incarnation, cmd, data, none, .returned .notLeader, none⟩] }
      | some (raft, _) => some { s with raft := raft }
      | none => none

/-- Register the waiter. The call that waited for the index before is answered that it was
superseded. -/
def register (s : KvSystem) (k : ℕ) (p : Proposal) (index term : ℕ) : Option KvSystem :=
  let server := s.servers p.node
  let answered := match server.waiters index with
    | none => some s
    | some old => s.sendTo old.ch .notLeader
  answered.map fun s =>
    { s.setServer p.node { server with waiters := update server.waiters index (some ⟨term, k⟩) }
      with proposals := s.proposals.modify k fun p => { p with stage := .waiting } }

/-- The last act of a call whose context ended: drop the waiter of its index. -/
def giveUp (s : KvSystem) (k : ℕ) (p : Proposal) (index : ℕ) : KvSystem :=
  let server := s.servers p.node
  { s.setServer p.node { server with waiters := update server.waiters index none }
    with proposals := s.proposals.set k { p with stage := .returned .contextDone } }

def stepCall (s : KvSystem) (k : ℕ) (f : Proposal → ℕ → ℕ → Option KvSystem) :
    Option KvSystem :=
  match s.proposals[k]? with
  | none => none
  | some p =>
    match p.appended with
    | none => none
    | some (index, term) => if s.running p then f p index term else none

def step (json : Json) (c : ValidCluster) (settings : NodeId → Config) (s : KvSystem) :
    KvEvent → Option KvSystem
  | .raft e => if direct e then s.stepRaft json c settings e else none
  | .applier n => s.stepApplier json n
  | .take n => s.takeWaiter n
  | .send n => s.sendWaiter n
  | .propose n cmd => s.submit json n cmd
  | .register k => s.stepCall k fun p index term =>
      if p.stage = .proposed then s.register k p index term else none
  | .receive k => s.stepCall k fun p _ _ =>
      match p.stage, p.ch with
      | .waiting, some answer => some { s with
          proposals := s.proposals.set k { p with stage := .returned answer, ch := none } }
      | _, _ => none
  | .expire k => s.stepCall k fun p _ _ =>
      if p.stage = .waiting then
        some { s with proposals := s.proposals.set k { p with stage := .givingUp } }
      else none
  | .giveUp k => s.stepCall k fun p index _ =>
      if p.stage = .givingUp then some (s.giveUp k p index) else none

end KvSystem

end Kv
