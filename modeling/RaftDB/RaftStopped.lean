import RaftDB.RaftFrames
import RaftDB.RaftSite

/-!
# Calls on a stopped node

After `Stop` the directory may belong to a new incarnation, so whatever still reaches the old one
must have no effect. Every request handler and every reply handler looks at the flag first;
`Propose` does not. A node that was stopped as a leader stays a leader, and a proposal then
writes to its log file.
-/
namespace Raft

open Storage TransitionSystem
open RaftNode hiding id

variable {σ D : Type} {M : StateMachine σ D}

/-- The calls that may still come in when the goroutines of the node are gone. -/
def Input.late : Input D → Bool
  | .requestVote _ | .appendEntries _ | .installSnapshot _ | .voteReply _ _
  | .appendReply _ _ _ _ | .snapshotReply _ _ _ _ | .propose _ => true
  | .start | .stop | .electionTimeout | .replicate _ | .applier => false

structure RaftNode.Unmoved (rn rn' : RaftNode D) : Prop where
  currentTerm : rn'.currentTerm = rn.currentTerm
  votedFor : rn'.votedFor = rn.votedFor
  log : rn'.log = rn.log
  commitIndex : rn'.commitIndex = rn.commitIndex
  state : rn'.state = rn.state

/-- Every call of the sequence leaves the node unmoved and writes nothing. -/
def Proc.Inert (M : StateMachine σ D) : Proc σ D → List (Input D) → Prop
  | _, [] => True
  | p, i :: is => ∀ o, p.handle M i = some o → o.writes = [] ∧
      ∀ p' out, o.result = .ok (p', out) → p.node.Unmoved p'.node ∧ Proc.Inert M p' is

theorem propose_follower {rn : RaftNode D} (h : rn.state ≠ .leader) (command : List UInt8) :
    rn.propose command = .done rn [] none := by
  rw [propose, proposeAt, if_pos h]

theorem propose_leader_writes {rn : RaftNode D} (h : rn.state = .leader) (command : List UInt8) :
    (rn.propose command).writes =
      [.writeRecord (.append ⟨rn.currentTerm, rn.log.lastLogIndex + 1, command⟩)] := by
  rw [propose, proposeAt, if_neg (not_not.mpr h)]
  dsimp only
  split <;> rfl

theorem Proc.locked_done {ρ : Type} (p : Proc σ D) (r : ρ) (out : ρ → Output D) :
    p.locked (.done p.node [] r) out = ⟨[], .ok (p, out r)⟩ := rfl

/-- A late call on a stopped node has no effect, unless it is a proposal to a leader. -/
theorem Proc.late_handle {p : Proc σ D} (hs : p.node.stopped = true) {i : Input D}
    (hi : i.late = true) (hp : p.node.state = .leader → ∀ command, i ≠ .propose command) :
    ∃ out, p.handle M i = some ⟨[], .ok (p, out)⟩ := by
  cases i with
  | requestVote args =>
    rw [Proc.handle, handleRequestVote, if_pos hs]
    exact ⟨_, congrArg some (p.locked_done _ _)⟩
  | appendEntries args =>
    rw [Proc.handle, handleAppendEntries, if_pos hs]
    exact ⟨_, congrArg some (p.locked_done _ _)⟩
  | installSnapshot args =>
    rw [Proc.handle, handleInstallSnapshot, if_pos hs]
    exact ⟨_, congrArg some (p.locked_done _ _)⟩
  | voteReply term reply =>
    rw [Proc.handle, handleRequestVoteReply, if_pos hs]
    exact ⟨_, congrArg some (p.locked_done _ _)⟩
  | appendReply peer term args reply =>
    rw [Proc.handle, handleAppendEntriesReply, if_pos hs]
    exact ⟨_, congrArg some (p.locked_done _ _)⟩
  | snapshotReply peer term args reply =>
    rw [Proc.handle, handleInstallSnapshotReply, if_pos hs]
    exact ⟨_, congrArg some (p.locked_done _ _)⟩
  | propose command =>
    have hfollower : p.node.state ≠ .leader := fun hl => hp hl command rfl
    rw [Proc.handle, propose_follower hfollower]
    exact ⟨_, congrArg some (p.locked_done _ _)⟩
  | start | stop | electionTimeout | replicate term | applier => cases hi

theorem Proc.Inert.no_proposal {p : Proc σ D} {i : Input D} {is : List (Input D)}
    (h : p.Inert M (i :: is)) (hl : p.node.state = .leader) (command : List UInt8) :
    i ≠ .propose command := by
  rintro rfl
  have hwrites := (h _ rfl).1
  rw [Proc.locked_writes, propose_leader_writes hl] at hwrites
  cases hwrites

/-- A stopped node is inert over a sequence of late calls exactly if it was not stopped as a
leader or none of the calls is a proposal. -/
theorem stopped_inert_iff (M : StateMachine σ D) {p : Proc σ D} (hs : p.node.stopped = true)
    {calls : List (Input D)} (hlate : ∀ i ∈ calls, i.late = true) :
    p.Inert M calls ↔ (p.node.state = .leader → ∀ command, .propose command ∉ calls) := by
  induction calls with
  | nil => simp [Proc.Inert]
  | cons i is ih =>
    have hi := hlate i List.mem_cons_self
    have ih := ih fun j hj => hlate j (List.mem_cons_of_mem i hj)
    constructor
    · intro hinert hlead command hmem
      have hfirst := hinert.no_proposal hlead
      rcases List.mem_cons.mp hmem with heq | hrest
      · exact hfirst command heq.symm
      · obtain ⟨out, hout⟩ := Proc.late_handle (M := M) hs hi fun _ => hfirst
        exact ih.mp ((hinert _ hout).2 p out rfl).2 hlead command hrest
    · intro hno o ho
      obtain ⟨out, hout⟩ := Proc.late_handle (M := M) hs hi fun hlead command heq =>
        hno hlead command (heq ▸ List.mem_cons_self)
      cases hout.symm.trans ho
      refine ⟨rfl, ?_⟩
      rintro p' out' ⟨⟩
      exact ⟨⟨rfl, rfl, rfl, rfl, rfl⟩, ih.mpr fun hlead command hmem =>
        hno hlead command (List.mem_cons_of_mem i hmem)⟩

/-- Requests and a proposal reach a member that was stopped as a follower. -/
theorem stopped_inert_follower :
    ∃ s p, exec (Site.step recorder ⟨"n1", ["n2", "n3"], 0, 0, 0, 0, 0⟩) (fun _ _ => true)
        Site.init [.boot, .input .start, .input .stop] = some s ∧
      s.proc = some p ∧ p.node.stopped = true ∧ p.node.state = .follower ∧
      p.Inert recorder [.requestVote ⟨7, "n2", 0, 0⟩,
        .appendEntries ⟨7, "n2", 0, 0, [⟨7, 1, [1]⟩], 1⟩, .propose [2]] := by
  have hrun : ((exec (Site.step recorder ⟨"n1", ["n2", "n3"], 0, 0, 0, 0, 0⟩) (fun _ _ => true)
      Site.init [.boot, .input .start, .input .stop]).bind Site.proc).map
      (fun p => (p.node.stopped, p.node.state)) = some (true, .follower) := by decide +kernel
  obtain ⟨p, hbind, hpair⟩ := Option.map_eq_some_iff.mp hrun
  obtain ⟨s, hs, hp⟩ := Option.bind_eq_some_iff.mp hbind
  obtain ⟨hstop, hstate⟩ := Prod.mk.inj hpair
  refine ⟨s, p, hs, hp, hstop, hstate, (stopped_inert_iff recorder hstop (by decide)).mpr ?_⟩
  intro hlead
  exact absurd (hstate.symm.trans hlead) (by decide)

/-- A single member wins its election and is stopped. A proposal then appends to its log, in
memory and on disk. -/
theorem stopped_leader_writes :
    ∃ s p, Runs (Site.step recorder ⟨"n1", [], 0, 0, 0, 0, 0⟩) Always Site.init s ∧
      s.proc = some p ∧ p.node.stopped = true ∧ ¬p.Inert recorder [.propose [7]] ∧
      (p.handle recorder (.propose [7])).map StepOutcome.writes =
        some [.writeRecord (.append ⟨1, 1, [7]⟩)] := by
  have hrun : ((exec (Site.step recorder ⟨"n1", [], 0, 0, 0, 0, 0⟩) (fun _ _ => true)
      Site.init [.boot, .input .start, .input .electionTimeout, .input .stop]).bind
      Site.proc).map (fun p => decide (p.node.stopped = true ∧ p.node.state = .leader ∧
        (p.handle recorder (.propose [7])).map StepOutcome.writes =
          some [.writeRecord (.append ⟨1, 1, [7]⟩)])) = some true := by decide +kernel
  obtain ⟨p, hbind, hfacts⟩ := Option.map_eq_some_iff.mp hrun
  obtain ⟨s, hs, hp⟩ := Option.bind_eq_some_iff.mp hbind
  obtain ⟨hstop, hlead, hwrites⟩ := of_decide_eq_true hfacts
  exact ⟨s, p, runs_of_exec (fun _ _ _ => trivial) _ hs, hp, hstop,
    fun hinert => hinert.no_proposal hlead [7] rfl, hwrites⟩

end Raft
