import RaftDB.RaftCursorSteps
import RaftDB.RaftLeaderCompleteness

/-!
# The cursors of a leader

`nextIndex` and `matchIndex` move with the replies of one leadership. The two stay apart as long
as no rejection makes the leader retry at a position that the peer has confirmed. Such a rejection
can keep a peer below the boundary for good, since the snapshot that would help it raises
`nextIndex` only together with `matchIndex`.
-/
namespace Raft

open Storage ClusterConfig TransitionSystem
open RaftNode hiding id

variable {σ D : Type}

/-- A rejection that points back to a position that the peer has confirmed. -/
def RaftNode.PointsBack (rn : RaftNode D) : Input D → Prop
  | .appendReply peer term args reply => rn.Takes term reply.term ∧ reply.success = false ∧
      nextIndexAfterRejection rn.log args.prevLogIndex reply ≤ rn.matchIndex peer
  | _ => False

def NonePointsBack (s : System σ D) (e : Event D) : Prop :=
  ∀ x ∈ s.inputOf e, ∀ p ∈ (s.hosts x.1).proc, ¬p.node.PointsBack x.2

section Runs

variable {M : StateMachine σ D} {c : ValidCluster} {settings : NodeId → Config}
  {s t : System σ D} {rn rn' : RaftNode D} {i : Input D}

def RaftNode.Apart (rn : RaftNode D) : Prop :=
  rn.state = .leader → ∀ peer ∈ rn.peers, rn.matchIndex peer < rn.nextIndex peer

theorem update_lt_update {f g : NodeId → ℕ} {peer : NodeId} {x y : ℕ} (hxy : x < y) {q : NodeId}
    (h : f q < g q) : Function.update f peer x q < Function.update g peer y q := by
  by_cases hq : q = peer
  · subst hq
    rwa [Function.update_self, Function.update_self]
  · rwa [Function.update_of_ne hq, Function.update_of_ne hq]

theorem RaftNode.Apart.step (h : rn.Apart) (hspec : CursorSpec rn rn' i)
    (hno : ¬rn.PointsBack i) : rn'.Apart := by
  intro hl peer hpeer
  rw [peers, hspec.1] at hpeer
  cases hspec.2 hl with
  | kept hs _ hn hm =>
    rw [hn, hm]
    exact h hs peer hpeer
  | elected _ hn hm =>
    rw [hn peer hpeer, hm]
    exact Nat.succ_pos _
  | confirmed n htakes _ _ heq =>
    subst heq
    exact update_lt_update (Nat.lt_succ_self _) (h htakes.leads peer hpeer)
  | @rejected peer' term args reply htakes hfail heq =>
    subst heq
    have hlt : rn.matchIndex peer' < nextIndexAfterRejection rn.log args.prevLogIndex reply :=
      not_le.mp fun hle => hno ⟨htakes, hfail, hle⟩
    have hsame := Function.update_eq_self peer' rn.matchIndex
    rw [← hsame]
    exact update_lt_update hlt (h htakes.leads peer hpeer)
  | caughtUp htakes _ heq =>
    subst heq
    exact update_lt_update (Nat.lt_succ_self _) (h htakes.leads peer hpeer)

theorem apart_of_runs (hrun : Runs (System.step M c settings) NonePointsBack System.init s)
    {n : NodeId} {p : Proc σ D} (hp : (s.hosts n).proc = some p) : p.node.Apart := by
  refine hrun.invariant (P := fun s => ∀ n p, (s.hosts n).proc = some p → p.node.Apart)
    (by rintro _ _ ⟨⟩) ?_ n p hp
  intro s e t ih hok hst n p' hp'
  cases proc_step hst hp' with
  | same heq =>
    rw [heq] at hp'
    exact ih n p' hp'
  | boot rn hrn heq =>
    subst heq
    intro hl
    exact absurd ((newNode_follower hrn).symm.trans hl) (by decide)
  | moved p i o out hin hp ho hres =>
    exact (ih n p hp).step (p.handled ho hres).cursors (hok _ hin p hp)

end Runs

section Schedules

instance (rn : RaftNode D) (term reply : ℕ) : Decidable (rn.Takes term reply) :=
  decidable_of_iff (rn.stopped = false ∧ rn.state = .leader ∧ rn.currentTerm = term ∧
      reply ≤ rn.currentTerm)
    ⟨fun h => ⟨h.1, h.2.1, h.2.2.1, h.2.2.2⟩, fun h => ⟨h.1, h.2, h.3, h.4⟩⟩

/-- The first member leads again, with an entry that the second does not have. Two of its
requests are rejected; the first rejection makes it send the whole log. -/
def trioRetries : List (Event (List LogEntry)) :=
  trioElects ++ ([.act "n1" (.propose [7]), .crash "n1", .boot "n1", .act "n1" .start,
    .act "n1" .electionTimeout, .deliver 2, .receive 1, .act "n1" (.replicate 2),
    .act "n1" (.replicate 2), .deliver 4, .deliver 6, .receive 2, .act "n1" (.propose [8]),
    .act "n1" (.replicate 2), .deliver 8, .receive 4] : List (Event (List LogEntry)))

def Event.stops : Event D → Bool
  | .act _ .stop => true
  | _ => false

def NeverStops (_ : System σ D) (e : Event D) : Prop := e.stops = false

theorem neverStops_of_not {s : System σ D} {e : Event D} (h : (!e.stops) = true) :
    NeverStops s e := by
  rw [Bool.not_eq_true'] at h
  exact h

end Schedules

section Snapshots

variable {M : StateMachine σ D} {c : ValidCluster} {settings : NodeId → Config}
  {s t : System σ D} {n peer : NodeId} {p : Proc σ D} {e : Event D} {term : ℕ}
  {args : InstallSnapshotArgs D} {reply : InstallSnapshotReply}

theorem RaftNode.Takes.snapshotReply {rn : RaftNode D} (h : rn.Takes term reply.term) :
    rn.handleInstallSnapshotReply peer term args reply = .done
      (if rn.matchIndex peer < args.lastIncludedIndex then
        rn.caughtUpTo peer args.lastIncludedIndex else rn) [] () := by
  obtain ⟨hrun, hlead, hsame, hcur⟩ := h
  rw [handleInstallSnapshotReply, if_neg (by simp [hrun]), if_neg (not_lt.mpr hcur),
    if_neg (by simp [hlead, hsame])]
  split <;> rfl

/-- The call that a snapshot reply answers: its snapshot was committed by the caller. -/
theorem Sim.snapshotReply_call {R : Represents M} {fresh : Prop} {a : Abstract}
    (h : Sim R c settings fresh s a) (hst : s.step M c settings e = some t)
    (hin : s.inputOf e = some (n, .snapshotReply peer term args reply))
    (hp : (s.hosts n).proc = some p) :
    peer ∈ p.node.peers ∧ args.lastIncludedIndex ≤ p.node.commitIndex := by
  cases input_origin hst hin with
  | own hi => cases hi
  | request call _ _ hi => exact absurd hi.symm call.request.input_ne_snapshotReply
  | reply k call answer hj hk hcaller hi hinc =>
    obtain ⟨_, hreq, hcallee, _⟩ := Call.input_snapshotReply hi
    have hmem := List.mem_of_getElem? hk
    obtain ⟨_, hcal, hne, _⟩ := h.calls call hmem
    subst hcaller
    subst hcallee
    obtain ⟨_, _, hconf⟩ := h.related (h.member hp) hp
    refine ⟨?_, h.sent call hmem args p hreq hinc hp⟩
    rw [hconf.peers]
    exact ValidCluster.mem_peerIDs.mpr ⟨hcal, hne⟩

/-- A peer that needs entries below the boundary is helped by a snapshot exactly if it has not
confirmed the snapshot's index yet. If no rejection has pointed back to a confirmed position, that
is always so, and the next round sends entries again. -/
theorem snapshot_progress (M : StateMachine σ D) (c : ValidCluster) (settings : NodeId → Config)
    {s t : System σ D} (hrun : Runs (System.step M c settings) Always System.init s)
    {e : Event D} (hst : s.step M c settings e = some t) {n peer : NodeId} {term : ℕ}
    {args : InstallSnapshotArgs D} {reply : InstallSnapshotReply}
    (hin : s.inputOf e = some (n, .snapshotReply peer term args reply)) {p : Proc σ D}
    (hp : (s.hosts n).proc = some p) (htakes : p.node.Takes term reply.term)
    (hbelow : p.node.nextIndex peer ≤ p.node.log.base)
    (hcovers : p.node.log.base ≤ args.lastIncludedIndex) :
    ∃ p', (t.hosts n).proc = some p' ∧
      (args.lastIncludedIndex < p'.node.nextIndex peer ↔
        p.node.matchIndex peer < args.lastIncludedIndex) ∧
      (args.lastIncludedIndex < p'.node.nextIndex peer →
        ∃ request, p'.node.outboundTo term peer = some (.append peer request)) ∧
      (Runs (System.step M c settings) NonePointsBack System.init s →
        args.lastIncludedIndex < p'.node.nextIndex peer) := by
  obtain ⟨a, ha⟩ := exists_account hrun
  obtain ⟨hpeer, hsent⟩ := ha.snapshotReply_call hst hin hp
  obtain ⟨_, hrel, _⟩ := ha.related (ha.member hp) hp
  have hlocked : p.handle M (.snapshotReply peer term args reply) = some ⟨[], .ok ({ p with
      node := if p.node.matchIndex peer < args.lastIncludedIndex then
        p.node.caughtUpTo peer args.lastIncludedIndex else p.node }, .quiet)⟩ := by
    rw [Proc.handle, Proc.locked, htakes.snapshotReply]
    rfl
  cases hosts_step hst with
  | boot _ _ hnone | crash _ hnone | load hnone => cases hnone.symm.trans hin
  | input m i q o hin' hq ho hu =>
    cases hin.symm.trans hin'
    cases hp.symm.trans hq
    cases hlocked.symm.trans ho
    have hiff : args.lastIncludedIndex < (if p.node.matchIndex peer < args.lastIncludedIndex then
        p.node.caughtUpTo peer args.lastIncludedIndex else p.node).nextIndex peer ↔
        p.node.matchIndex peer < args.lastIncludedIndex := by
      split
      · rename_i hlt
        simp [caughtUpTo, hlt]
      · rename_i hge
        constructor <;> intro h <;> omega
    refine ⟨_, by rw [hu, settle_host rfl], hiff, fun hnext => ?_, fun hruns => ?_⟩
    · have hlt := hiff.mp hnext
      dsimp only
      rw [if_pos hlt]
      have hcommit := hrel.wf.commit_le
      have hnext' : (p.node.caughtUpTo peer args.lastIncludedIndex).nextIndex peer =
          args.lastIncludedIndex + 1 := Function.update_self _ _ _
      have hlog : (p.node.caughtUpTo peer args.lastIncludedIndex).log = p.node.log := rfl
      obtain ⟨_, _, hout⟩ := outboundTo_of_next (p.node.caughtUpTo peer args.lastIncludedIndex)
        term peer hrel.wf.numbered (by rw [hnext', hlog]; omega) (by rw [hnext', hlog]; omega)
      exact ⟨_, hout⟩
    · have hapart := apart_of_runs hruns hp htakes.leads peer hpeer
      exact hiff.mpr (by omega)

def trioLags : List (Event (List LogEntry)) :=
  trioElects ++ ([.act "n1" (.propose [7]), .act "n1" (.replicate 1), .deliver 2, .receive 1,
    .act "n1" .applier, .act "n1" .applier, .act "n1" .applier, .act "n1" .applier,
    .act "n1" .applier, .act "n1" (.replicate 1), .loadSnapshot 0,
    .deliver 5] : List (Event (List LogEntry)))

theorem snapshot_progress_trio :
    ∃ s t p', exec (System.step recorder trio firstCompacts) (fun _ _ => true) System.init
        trioLags = some s ∧
      s.step recorder trio firstCompacts (.receive 2) = some t ∧
      s.inputOf (.receive 2) = some ("n1", .snapshotReply "n3" 1
        (snapshotRequest "n1" 1 ⟨1, 1, [⟨1, 1, [7]⟩]⟩) ⟨1⟩) ∧
      (t.hosts "n1").proc = some p' ∧ 1 < p'.node.nextIndex "n3" ∧
      ∃ request, p'.node.outboundTo 1 "n3" = some (.append "n3" request) := by
  have hrun : ((exec (System.step recorder trio firstCompacts) (fun _ _ => true) System.init
      trioLags).bind fun s => (s.step recorder trio firstCompacts (.receive 2)).bind fun _ =>
      (s.hosts "n1").proc.map fun p => decide (s.inputOf (.receive 2) = some ("n1",
        .snapshotReply "n3" 1 (snapshotRequest "n1" 1 ⟨1, 1, [⟨1, 1, [7]⟩]⟩) ⟨1⟩) ∧
        p.node.Takes 1 1 ∧ p.node.nextIndex "n3" ≤ p.node.log.base ∧ p.node.log.base ≤ 1 ∧
        p.node.matchIndex "n3" < 1)) = some true := by decide +kernel
  obtain ⟨s, hs, hrest⟩ := Option.bind_eq_some_iff.mp hrun
  obtain ⟨t, ht, hrest⟩ := Option.bind_eq_some_iff.mp hrest
  obtain ⟨p, hp, hfacts⟩ := Option.map_eq_some_iff.mp hrest
  obtain ⟨hin, htakes, hbelow, hcovers, hmatch⟩ := of_decide_eq_true hfacts
  obtain ⟨p', hp', hiff, hsend, _⟩ := snapshot_progress recorder trio firstCompacts
    (runs_of_exec (fun _ _ _ => trivial) _ hs) ht hin hp htakes hbelow hcovers
  exact ⟨s, t, p', hs, ht, hin, hp', hiff.mpr hmatch, hsend (hiff.mpr hmatch)⟩

def trioRepeats : List (Event (List LogEntry)) :=
  trioRetries ++ ([.receive 3, .act "n1" .applier, .act "n1" .applier, .act "n1" .applier,
    .act "n1" .applier, .act "n1" .applier, .act "n1" .applier, .act "n1" (.replicate 2),
    .loadSnapshot 0, .deliver 10] : List (Event (List LogEntry)))

/-- The reply changes nothing: the next round will send the same snapshot again. -/
theorem snapshot_no_progress :
    ∃ s t p p', Runs (System.step recorder trio firstCompacts) NeverStops System.init s ∧
      s.step recorder trio firstCompacts (.receive 5) = some t ∧
      s.inputOf (.receive 5) = some ("n1", .snapshotReply "n2" 2
        (snapshotRequest "n1" 2 ⟨2, 2, [⟨1, 1, [7]⟩, ⟨2, 2, [8]⟩]⟩) ⟨2⟩) ∧
      (s.hosts "n1").proc = some p ∧ p.node.Takes 2 2 ∧
      p.node.nextIndex "n2" ≤ p.node.log.base ∧ p.node.log.base ≤ 2 ∧
      (t.hosts "n1").proc = some p' ∧ p'.node.nextIndex "n2" ≤ 2 ∧
      p'.node.outboundTo 2 "n2" = some (.snapshot "n2") := by
  have hrun : ((exec (System.step recorder trio firstCompacts) (fun _ e => !e.stops) System.init
      trioRepeats).bind fun s => (s.step recorder trio firstCompacts (.receive 5)).bind fun t =>
      (s.hosts "n1").proc.bind fun p => (t.hosts "n1").proc.map fun p' => decide (
        s.inputOf (.receive 5) = some ("n1", .snapshotReply "n2" 2
          (snapshotRequest "n1" 2 ⟨2, 2, [⟨1, 1, [7]⟩, ⟨2, 2, [8]⟩]⟩) ⟨2⟩) ∧
        p.node.Takes 2 2 ∧ p.node.nextIndex "n2" ≤ p.node.log.base ∧ p.node.log.base ≤ 2 ∧
        p'.node.nextIndex "n2" ≤ 2 ∧
        p'.node.outboundTo 2 "n2" = some (.snapshot "n2"))) = some true := by decide +kernel
  obtain ⟨s, hs, hrest⟩ := Option.bind_eq_some_iff.mp hrun
  obtain ⟨t, ht, hrest⟩ := Option.bind_eq_some_iff.mp hrest
  obtain ⟨p, hp, hrest⟩ := Option.bind_eq_some_iff.mp hrest
  obtain ⟨p', hp', hfacts⟩ := Option.map_eq_some_iff.mp hrest
  obtain ⟨hin, htakes, hbelow, hcovers, hnext, hsend⟩ := of_decide_eq_true hfacts
  exact ⟨s, t, p, p', runs_of_exec (fun _ _ => neverStops_of_not) _ hs, ht, hin, hp,
    htakes, hbelow, hcovers, hp', hnext, hsend⟩

end Snapshots

end Raft
