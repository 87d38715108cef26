import RaftDB.ClusterConfig
import RaftDB.RaftProcess
import RaftDB.TransitionSystem

/-!
# The cluster

All members with their directories and the network between them. A call carries one request
and is answered by at most one of the replies that its deliveries produce; a request may be
delivered any number of times, in any order, or never. A crash may fall between any two
steps. Reply handlers belong to the incarnation that made the call. The trace records what
was applied, restored, committed and elected, and every panic.
-/
namespace Raft

open Storage ClusterConfig RaftNode TransitionSystem

inductive Request (D : Type) where
  | vote (args : RequestVoteArgs)
  | append (args : AppendEntriesArgs)
  | snapshot (args : InstallSnapshotArgs D)
  deriving DecidableEq, Repr

inductive Reply where
  | vote (reply : RequestVoteReply)
  | append (reply : AppendEntriesReply)
  | snapshot (reply : InstallSnapshotReply)
  deriving DecidableEq, Repr

structure Call (D : Type) where
  caller : NodeId
  incarnation : ℕ
  callee : NodeId
  request : Request D
  deriving DecidableEq, Repr

/-- A goroutine of `sendSnapshot` that has not loaded the snapshot yet. -/
structure Task where
  node : NodeId
  incarnation : ℕ
  peer : NodeId
  term : ℕ
  deriving DecidableEq, Repr

/-- An election or a commit is recorded with the log of the leader and the snapshot below
it. -/
inductive Observation (D : Type) where
  | applied (node : NodeId) (incarnation : ℕ) (e : LogEntry)
  | restored (node : NodeId) (incarnation : ℕ) (data : D)
  | elected (node : NodeId) (term : ℕ) (snapshot : Option (Snapshot D)) (log : RaftLog)
  | committed (node : NodeId) (term : ℕ) (snapshot : Option (Snapshot D)) (log : RaftLog)
      (commitIndex : ℕ)
  | panicked (node : NodeId) (reason : Panic)
  deriving DecidableEq, Repr

structure Host (σ D : Type) where
  disk : Disk D
  incarnation : ℕ
  proc : Option (Proc σ D)

structure System (σ D : Type) where
  hosts : NodeId → Host σ D
  calls : List (Call D)
  replies : List (ℕ × Reply)
  answered : List ℕ
  tasks : List Task
  trace : List (Observation D)

inductive Event (D : Type) where
  | boot (n : NodeId)
  | crash (n : NodeId)
  | act (n : NodeId) (i : Input D)
  | loadSnapshot (task : ℕ)
  | deliver (call : ℕ)
  | receive (reply : ℕ)

variable {σ D : Type}

/-- A node does these on its own account; the other inputs come from the network. -/
def Input.internal : Input D → Bool
  | .start | .stop | .electionTimeout | .propose _ | .replicate _ | .applier => true
  | _ => false

def Request.input : Request D → Input D
  | .vote args => .requestVote args
  | .append args => .appendEntries args
  | .snapshot args => .installSnapshot args

def Call.input (call : Call D) : Reply → Option (Input D)
  | .vote reply => match call.request with
    | .vote args => some (.voteReply args.term reply)
    | _ => none
  | .append reply => match call.request with
    | .append args => some (.appendReply call.callee args.term args reply)
    | _ => none
  | .snapshot reply => match call.request with
    | .snapshot args => some (.snapshotReply call.callee args.term args reply)
    | _ => none

def Output.reply : Output D → Option Reply
  | .voteReply reply => some (.vote reply)
  | .appendReply reply => some (.append reply)
  | .snapshotReply reply => some (.snapshot reply)
  | _ => none

def Output.calls (n : NodeId) (incarnation : ℕ) (peers : List NodeId) : Output D → List (Call D)
  | .requestVotes args => peers.map fun peer => ⟨n, incarnation, peer, .vote args⟩
  | .round _ msgs => msgs.filterMap fun
    | .append peer args => some ⟨n, incarnation, peer, .append args⟩
    | .snapshot _ => none
  | _ => []

def Output.tasks (n : NodeId) (incarnation : ℕ) : Output D → List Task
  | .round term msgs => msgs.filterMap fun
    | .append _ _ => none
    | .snapshot peer => some ⟨n, incarnation, peer, term⟩
  | _ => []

def Output.observed (n : NodeId) (incarnation : ℕ) : Output D → List (Observation D)
  | .applied e => [.applied n incarnation e]
  | .restored data => [.restored n incarnation data]
  | _ => []

def observeLeader (n : NodeId) (disk : Disk D) (rn rn' : RaftNode D) : List (Observation D) :=
  if rn'.state ≠ .leader then []
  else
    (if rn.state ≠ .leader then [.elected n rn'.currentTerm disk.snapshot rn'.log] else []) ++
      if rn.commitIndex < rn'.commitIndex then
        [.committed n rn'.currentTerm disk.snapshot rn'.log rn'.commitIndex]
      else []

namespace System

def init : System σ D where
  hosts := fun _ => ⟨Disk.empty, 0, none⟩
  calls := []
  replies := []
  answered := []
  tasks := []
  trace := []

/-- The system behind a step of the process `p` on the host of `n`. -/
def settle (s : System σ D) (n : NodeId) (p : Proc σ D) (o : StepOutcome σ D) : System σ D :=
  let h := s.hosts n
  let disk := h.disk.writeAll o.writes
  match o.result with
  | .error e =>
    { s with
      hosts := Function.update s.hosts n ⟨disk, h.incarnation, none⟩
      trace := s.trace ++ [.panicked n e] }
  | .ok (p', out) =>
    { s with
      hosts := Function.update s.hosts n ⟨disk, h.incarnation, some p'⟩
      calls := s.calls ++ out.calls n h.incarnation p.node.peers
      tasks := s.tasks ++ out.tasks n h.incarnation
      trace := s.trace ++ (out.observed n h.incarnation ++
        observeLeader n disk p.node p'.node) }

def run (M : StateMachine σ D) (s : System σ D) (n : NodeId) (i : Input D) :
    Option (System σ D × Option (Output D)) :=
  match (s.hosts n).proc with
  | none => none
  | some p =>
    match p.handle M i with
    | none => none
    | some o => some (s.settle n p o, o.output)

end System

/-- The configuration that the daemon derives for a member; all else is the operator's. -/
def nodeConfig (c : ValidCluster) (settings : NodeId → Config) (n : NodeId) : Config :=
  { settings n with id := n, peers := c.peerIDs n }

namespace System

def step (M : StateMachine σ D) (c : ValidCluster) (settings : NodeId → Config)
    (s : System σ D) : Event D → Option (System σ D)
  | .boot n =>
    let h := s.hosts n
    if n ∈ c.ids ∧ h.proc.isNone then
      match newNode (nodeConfig c settings n) h.disk with
      | .error _ => none
      | .ok rn => some { s with
          hosts := Function.update s.hosts n
            ⟨h.disk, h.incarnation + 1, some (Proc.boot M rn)⟩ }
    else none
  | .crash n =>
    let h := s.hosts n
    if h.proc.isSome then
      some { s with hosts := Function.update s.hosts n ⟨h.disk, h.incarnation, none⟩ }
    else none
  | .act n i => if i.internal then (s.run M n i).map Prod.fst else none
  | .loadSnapshot j =>
    match s.tasks[j]? with
    | none => none
    | some t =>
      let h := s.hosts t.node
      if h.incarnation = t.incarnation ∧ h.proc.isSome then
        let s := { s with tasks := s.tasks.eraseIdx j }
        match h.disk.snapshot with
        | none => some s
        | some snap => some { s with
            calls := s.calls ++ [⟨t.node, t.incarnation, t.peer,
              .snapshot (snapshotRequest t.node t.term snap)⟩] }
      else none
  | .deliver k =>
    match s.calls[k]? with
    | none => none
    | some call =>
      match s.run M call.callee call.request.input with
      | none => none
      | some (s', out) =>
        match out.bind Output.reply with
        | none => some s'
        | some reply => some { s' with replies := s'.replies ++ [(k, reply)] }
  | .receive j =>
    match s.replies[j]? with
    | none => none
    | some (k, reply) =>
      match s.calls[k]? with
      | none => none
      | some call =>
        if k ∉ s.answered ∧ (s.hosts call.caller).incarnation = call.incarnation then
          match call.input reply with
          | none => none
          | some i => (s.run M call.caller i).map fun x =>
              { x.1 with answered := k :: x.1.answered }
        else none

end System

section Facts

variable {M : StateMachine σ D} {c : ValidCluster} {settings : NodeId → Config}
  {s t : System σ D} {n m : NodeId}

theorem settle_answered (s : System σ D) (n : NodeId) (p : Proc σ D) (o : StepOutcome σ D) :
    { s.settle n p o with answered := s.answered } = s.settle n p o := by
  rw [System.settle]
  split <;> rfl

theorem settle_calls (s : System σ D) (n : NodeId) (p : Proc σ D) (o : StepOutcome σ D) :
    s.calls <+: (s.settle n p o).calls := by
  rw [System.settle]
  split
  · exact List.prefix_refl _
  · exact List.prefix_append _ _

theorem settle_trace (s : System σ D) (n : NodeId) (p : Proc σ D) (o : StepOutcome σ D) :
    s.trace <+: (s.settle n p o).trace := by
  rw [System.settle]
  split <;> exact List.prefix_append _ _

theorem update_incarnation (hosts : NodeId → Host σ D) (n m : NodeId) (disk : Disk D)
    (proc : Option (Proc σ D)) :
    (Function.update hosts n ⟨disk, (hosts n).incarnation, proc⟩ m).incarnation =
      (hosts m).incarnation := by
  by_cases hm : m = n
  · rw [hm, Function.update_self]
  · rw [Function.update_of_ne hm]

theorem settle_incarnation (s : System σ D) (n m : NodeId) (p : Proc σ D) (o : StepOutcome σ D) :
    ((s.settle n p o).hosts m).incarnation = (s.hosts m).incarnation := by
  rw [System.settle]
  split <;> exact update_incarnation s.hosts n m _ _

theorem run_cases {i : Input D} {out : Option (Output D)} (h : s.run M n i = some (t, out)) :
    ∃ p o, (s.hosts n).proc = some p ∧ p.handle M i = some o ∧ t = s.settle n p o ∧
      out = o.output := by
  rw [System.run] at h
  split at h
  · cases h
  rename_i p hp
  split at h
  · cases h
  rename_i o ho
  cases h
  exact ⟨p, o, hp, ho, rfl, rfl⟩

theorem run_onward {i : Input D} {out : Option (Output D)} (h : s.run M n i = some (t, out)) :
    s.trace <+: t.trace ∧ ∀ m, (t.hosts m).incarnation = (s.hosts m).incarnation := by
  obtain ⟨p, o, _, _, rfl, _⟩ := run_cases h
  exact ⟨settle_trace s n p o, fun m => settle_incarnation s n m p o⟩

inductive Stepped (M : StateMachine σ D) (c : ValidCluster) (settings : NodeId → Config)
    (s : System σ D) : Event D → System σ D → Prop where
  | boot (n : NodeId) (rn : RaftNode D) : n ∈ c.ids → (s.hosts n).proc = none →
      newNode (nodeConfig c settings n) (s.hosts n).disk = .ok rn →
      Stepped M c settings s (.boot n) { s with
        hosts := Function.update s.hosts n
          ⟨(s.hosts n).disk, (s.hosts n).incarnation + 1, some (Proc.boot M rn)⟩ }
  | crash (n : NodeId) (p : Proc σ D) : (s.hosts n).proc = some p →
      Stepped M c settings s (.crash n) { s with
        hosts := Function.update s.hosts n ⟨(s.hosts n).disk, (s.hosts n).incarnation, none⟩ }
  | act (n : NodeId) (i : Input D) (u : System σ D) (out : Option (Output D)) :
      i.internal = true → s.run M n i = some (u, out) → Stepped M c settings s (.act n i) u
  | unsaved (j : ℕ) (task : Task) : s.tasks[j]? = some task →
      (s.hosts task.node).disk.snapshot = none →
      Stepped M c settings s (.loadSnapshot j) { s with tasks := s.tasks.eraseIdx j }
  | loaded (j : ℕ) (task : Task) (p : Proc σ D) (snap : Snapshot D) :
      s.tasks[j]? = some task → (s.hosts task.node).incarnation = task.incarnation →
      (s.hosts task.node).proc = some p → (s.hosts task.node).disk.snapshot = some snap →
      Stepped M c settings s (.loadSnapshot j) { s with
        tasks := s.tasks.eraseIdx j
        calls := s.calls ++ [⟨task.node, task.incarnation, task.peer,
          .snapshot (snapshotRequest task.node task.term snap)⟩] }
  | ignored (k : ℕ) (call : Call D) (u : System σ D) (out : Option (Output D)) :
      s.calls[k]? = some call → s.run M call.callee call.request.input = some (u, out) →
      out.bind Output.reply = none → Stepped M c settings s (.deliver k) u
  | answered (k : ℕ) (call : Call D) (u : System σ D) (out : Output D) (reply : Reply) :
      s.calls[k]? = some call → s.run M call.callee call.request.input = some (u, some out) →
      out.reply = some reply →
      Stepped M c settings s (.deliver k) { u with replies := u.replies ++ [(k, reply)] }
  | received (j k : ℕ) (reply : Reply) (call : Call D) (i : Input D) (u : System σ D)
      (out : Option (Output D)) : s.replies[j]? = some (k, reply) → s.calls[k]? = some call →
      k ∉ s.answered → (s.hosts call.caller).incarnation = call.incarnation →
      call.input reply = some i → s.run M call.caller i = some (u, out) →
      Stepped M c settings s (.receive j) { u with answered := k :: u.answered }

theorem stepped_of_step {e : Event D} (h : s.step M c settings e = some t) :
    Stepped M c settings s e t := by
  cases e with
  | boot n =>
    simp only [System.step] at h
    split at h
    · rename_i hb
      split at h
      · cases h
      rename_i rn hrn
      cases h
      exact .boot n rn hb.1 (Option.isNone_iff_eq_none.mp hb.2) hrn
    · cases h
  | crash n =>
    simp only [System.step] at h
    split at h
    · rename_i hsome
      cases h
      obtain ⟨p, hp⟩ := Option.isSome_iff_exists.mp hsome
      exact .crash n p hp
    · cases h
  | act n i =>
    simp only [System.step] at h
    split at h
    · rename_i hi
      obtain ⟨⟨u, out⟩, hx, rfl⟩ := Option.map_eq_some_iff.mp h
      exact .act n i u out hi hx
    · cases h
  | loadSnapshot j =>
    simp only [System.step] at h
    split at h
    · cases h
    rename_i task hj
    split at h
    · rename_i hlive
      obtain ⟨p, hp⟩ := Option.isSome_iff_exists.mp hlive.2
      split at h
      · rename_i hsnap
        cases h
        exact .unsaved j task hj hsnap
      · rename_i snap hsnap
        cases h
        exact .loaded j task p snap hj hlive.1 hp hsnap
    · cases h
  | deliver k =>
    simp only [System.step] at h
    split at h
    · cases h
    rename_i call hk
    split at h
    · cases h
    rename_i u out hx
    split at h
    · rename_i hnone
      cases h
      exact .ignored k call _ out hk hx hnone
    · rename_i reply hreply
      cases h
      obtain ⟨out, rfl, hrep⟩ := Option.bind_eq_some_iff.mp hreply
      exact .answered k call u out reply hk hx hrep
  | receive j =>
    simp only [System.step] at h
    split at h
    · cases h
    rename_i k reply hj
    split at h
    · cases h
    rename_i call hk
    split at h
    · rename_i hopen
      split at h
      · cases h
      rename_i i hi
      obtain ⟨⟨u, out⟩, hx, rfl⟩ := Option.map_eq_some_iff.mp h
      exact .received j k reply call i u out hj hk hopen.1 hopen.2 hi hx
    · cases h

/-- The trace only grows, and a boot alone starts a new incarnation, on its own host. -/
theorem step_onward {e : Event D} (h : s.step M c settings e = some t) :
    s.trace <+: t.trace ∧
      ∀ m, e ≠ .boot m → (t.hosts m).incarnation = (s.hosts m).incarnation := by
  cases stepped_of_step h with
  | boot n rn =>
    refine ⟨List.prefix_refl _, fun m hb => ?_⟩
    have hm : m ≠ n := fun heq => hb (heq ▸ rfl)
    exact congrArg Host.incarnation (Function.update_of_ne hm _ _)
  | crash n p => exact ⟨List.prefix_refl _, fun m _ => update_incarnation s.hosts n m _ _⟩
  | unsaved | loaded => exact ⟨List.prefix_refl _, fun _ _ => rfl⟩
  | act n i t out _ hx | ignored k call t out _ hx | answered k call u out reply _ hx
  | received j k reply call i u out _ _ _ _ _ hx =>
    exact ⟨(run_onward hx).1, fun m _ => (run_onward hx).2 m⟩

theorem boot_incarnation {n : NodeId} (h : s.step M c settings (.boot n) = some t) :
    (t.hosts n).incarnation = (s.hosts n).incarnation + 1 := by
  cases stepped_of_step h with
  | boot n rn => simp only [Function.update_self]

theorem runs_trace {ok : System σ D → Event D → Prop}
    (h : Runs (System.step M c settings) ok s t) : s.trace <+: t.trace := by
  induction h with
  | refl => exact List.prefix_refl _
  | tail _ _ hst ih => exact ih.trans (step_onward hst).1

theorem run_applied {i : Input D} {e : LogEntry}
    (h : s.run M n i = some (t, some (.applied e))) :
    Observation.applied n (s.hosts n).incarnation e ∈ t.trace := by
  obtain ⟨p, o, _, _, rfl, hout⟩ := run_cases h
  rw [StepOutcome.output] at hout
  rw [System.settle]
  cases hres : o.result with
  | error e => simp [hres] at hout
  | ok x =>
    simp only [hres, Option.some.injEq] at hout
    refine List.mem_append_right _ (List.mem_append_left _ ?_)
    rw [← hout]
    exact List.mem_singleton_self _

theorem propose_appends {rn rn' : RaftNode D} {command : List UInt8} {index term : ℕ}
    (h : (rn.propose command).result = .ok (rn', some (index, term))) :
    ⟨term, index, command⟩ ∈ rn'.log.entries := by
  rw [propose, proposeAt] at h
  split at h
  · cases h
  dsimp only at h
  split at h
  · cases h
  rename_i rn₁ hadv
  cases h
  have hlog : rn'.log = (rn.appendLogLocked
      [⟨rn.currentTerm, rn.log.lastLogIndex + 1, command⟩]).1.log := by
    rw [advanceCommitIndexLocked] at hadv
    split at hadv
    · cases hadv
      rfl
    split at hadv
    · cases hadv
    · cases hadv
      rfl
  rw [hlog]
  exact List.mem_append_right _ (List.mem_singleton_self _)

theorem run_proposed {command : List UInt8} {index term : ℕ}
    (h : s.run M n (.propose command) = some (t, some (.proposed (some (index, term))))) :
    ∃ p, (t.hosts n).proc = some p ∧ ⟨term, index, command⟩ ∈ p.node.log.entries := by
  obtain ⟨p, o, _, ho, rfl, hout⟩ := run_cases h
  cases ho
  cases hres : (p.node.propose command).result with
  | error e => simp [StepOutcome.output, Proc.locked, hres] at hout
  | ok x =>
    obtain ⟨rn', r⟩ := x
    have hlock : (p.locked (p.node.propose command) Output.proposed).result =
        .ok ({ p with node := rn' }, .proposed r) := by
      rw [Proc.locked, hres]
    simp only [StepOutcome.output, hlock, Option.some.injEq, Output.proposed.injEq] at hout
    rw [← hout] at hres
    refine ⟨{ p with node := rn' }, ?_, propose_appends hres⟩
    rw [System.settle, hlock]
    simp only [Function.update_self]

end Facts

end Raft
