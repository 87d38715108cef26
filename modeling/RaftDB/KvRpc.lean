import RaftDB.KvProposals
import RaftDB.KvRedirect

/-!
# The methods of the client service

`Put` and `Delete` wrap a call of `propose`, `Get` reads the local store of a node that was the
leader a moment before, and `Status` reports what the node knows. The node and the store have
locks of their own, so a method is a sequence of steps, and anything may run between two of them.
A call that reads the store keeps, as a record, the entries that had gone into it.
-/
namespace Raft

structure Status where
  id : NodeId
  state : State
  currentTerm : ℕ
  votedFor : NodeId
  leaderID : NodeId
  commitIndex : ℕ
  lastApplied : ℕ
  lastLogIndex : ℕ
  lastLogTerm : ℕ
  firstLogIndex : ℕ
  deriving DecidableEq, Repr

def State.string : State → String
  | .follower => "Follower"
  | .candidate => "Candidate"
  | .leader => "Leader"

namespace RaftNode

variable {D : Type}

def firstLogIndex (rn : RaftNode D) : ℕ := rn.log.base + 1

def status (rn : RaftNode D) : Status where
  id := rn.id
  state := rn.state
  currentTerm := rn.currentTerm
  votedFor := rn.votedFor
  leaderID := rn.leaderID
  commitIndex := rn.commitIndex
  lastApplied := rn.lastApplied
  lastLogIndex := rn.log.lastLogIndex
  lastLogTerm := rn.log.lastLogTerm
  firstLogIndex := rn.firstLogIndex

end RaftNode

end Raft

namespace Kv

open Raft ClusterConfig TransitionSystem Function

def Store.get (s : Store) (key : String) : String × Bool :=
  match s.m.lookup key with
  | some v => (v, true)
  | none => ("", false)

def Store.len (s : Store) : ℕ := s.m.keys.card

inductive Rpc where
  | put (key value : String)
  | delete (key : String)
  | get (key : String)
  | status
  deriving DecidableEq, Repr

def Rpc.command : Rpc → Option Command
  | .put key value => some ⟨.put, key, value⟩
  | .delete key => some ⟨.delete, key, ""⟩
  | _ => none

structure StatusResponse where
  nodeId : NodeId
  state : String
  currentTerm : ℕ
  votedFor : NodeId
  leaderId : NodeId
  commitIndex : ℕ
  lastApplied : ℕ
  lastLogIndex : ℕ
  lastLogTerm : ℕ
  firstLogIndex : ℕ
  keys : ℕ
  deriving DecidableEq, Repr

def StatusResponse.of (st : Status) (keys : ℕ) : StatusResponse where
  nodeId := st.id
  state := st.state.string
  currentTerm := st.currentTerm
  votedFor := st.votedFor
  leaderId := st.leaderID
  commitIndex := st.commitIndex
  lastApplied := st.lastApplied
  lastLogIndex := st.lastLogIndex
  lastLogTerm := st.lastLogTerm
  firstLogIndex := st.firstLogIndex
  keys := keys

/-- A response without an error; `failed` is an error of `propose`. -/
inductive Response where
  | written
  | redirected (redirect : Redirect)
  | value (value : String) (found : Bool)
  | status (status : StatusResponse)
  | failed (answer : Answer)
  deriving DecidableEq, Repr

inductive RpcStage where
  | proposing (k : ℕ)
  | redirecting
  | reading (key : String)
  | counting (st : Status)
  | answered (response : Response)
  deriving DecidableEq, Repr

structure RpcCall where
  node : NodeId
  incarnation : ℕ
  rpc : Rpc
  /-- The call of `propose`, by its place among all of them. -/
  proposal : Option ℕ
  stage : RpcStage
  /-- The entries in the store when it was read. -/
  seen : List LogEntry
  deriving DecidableEq, Repr

structure Service where
  kv : KvSystem
  calls : List RpcCall

inductive ServiceEvent where
  | kv (e : KvEvent)
  | invoke (n : NodeId) (rpc : Rpc)
  | proceed (j : ℕ)

/-- Commands are proposed by the methods only. -/
def KvEvent.background : KvEvent → Bool
  | .propose _ _ => false
  | _ => true

namespace Service

def init : Service := ⟨KvSystem.init, []⟩

def begin (s : Service) (n : NodeId) (rpc : Rpc) (stage : RpcStage) : Service :=
  { s with calls := s.calls ++ [⟨n, (s.kv.raft.hosts n).incarnation, rpc, none, stage, []⟩] }

/-- `Put` and `Delete`, up to the return of the node's `Propose`. A call that brings the process
down leaves nothing behind. -/
def write (json : Json) (s : Service) (n : NodeId) (rpc : Rpc) (cmd : Command) : Option Service :=
  (s.kv.submit json n cmd).map fun kv =>
    let k := s.kv.proposals.length
    if k < kv.proposals.length then
      { kv := kv
        calls := s.calls ++
          [⟨n, (s.kv.raft.hosts n).incarnation, rpc, some k, .proposing k, []⟩] }
    else { s with kv := kv }

def invoke (json : Json) (s : Service) (n : NodeId) (rpc : Rpc) : Option Service :=
  match (s.kv.raft.hosts n).proc with
  | none => none
  | some p =>
    match rpc with
    | .put key value => s.write json n rpc ⟨.put, key, value⟩
    | .delete key => s.write json n rpc ⟨.delete, key, ""⟩
    | .get key =>
      if p.node.status.state ≠ .leader then some (s.begin n rpc .redirecting)
      else some (s.begin n rpc (.reading key))
    | .status => some (s.begin n rpc (.counting p.node.status))

def concluded : Answer → RpcStage
  | .ok => .answered .written
  | .notLeader => .redirecting
  | answer => .answered (.failed answer)

/-- The next step of a method that runs in the process `p`; `none` while it waits. -/
def advance (c : Cluster) (s : Service) (p : Proc (Store × List LogEntry) (List UInt8 × List LogEntry))
    (call : RpcCall) : Option RpcCall :=
  match call.stage with
  | .proposing k =>
    match s.kv.proposals[k]? with
    | none => none
    | some q =>
      match q.stage with
      | .returned answer => some { call with stage := concluded answer }
      | _ => none
  | .redirecting =>
    some { call with stage := .answered (.redirected (redirect c p.node)) }
  | .reading key =>
    let (v, found) := p.machine.1.get key
    some { call with stage := .answered (.value v found), seen := p.machine.2 }
  | .counting st =>
    some { call with stage := .answered (.status (.of st p.machine.1.len)), seen := p.machine.2 }
  | .answered _ => none

def proceed (c : Cluster) (s : Service) (j : ℕ) : Option Service :=
  match s.calls[j]? with
  | none => none
  | some call =>
    let h := s.kv.raft.hosts call.node
    if h.incarnation ≠ call.incarnation then none
    else match h.proc with
      | none => none
      | some p => (s.advance c p call).map fun call => { s with calls := s.calls.set j call }

def step (json : Json) (c : ValidCluster) (settings : NodeId → Config) (s : Service) :
    ServiceEvent → Option Service
  | .kv e =>
    if e.background then (s.kv.step json c settings e).map fun kv => { s with kv := kv } else none
  | .invoke n rpc => s.invoke json n rpc
  | .proceed j => s.proceed c.toCluster j

end Service

end Kv
