import RaftDB.RaftBacktracking
import RaftDB.RaftIndexBounds
import RaftDB.RaftTermOrder

/-!
# The logs of a leader and a peer

What the search for a common index needs of two logs holds of any two members of a run, as long
as snapshots are loaded by a node that leads: each entry comes with the log of its own term's
leader, so two logs that share an entry share everything before it, and what a peer of no later
term has committed is in the leader's log.
-/
namespace Raft

open Storage ClusterConfig ReplicatedLog LogPrefix TransitionSystem
open RaftNode hiding id

variable {σ D : Type} {M : StateMachine σ D} {R : Represents M} {c : ValidCluster}
  {settings : NodeId → Config} {s : System σ D} {a : Abstract} {n m : NodeId}
  {rn rm : RaftNode D}

namespace NodeRel

theorem ordered (h : NodeRel a n rn) (hi : Valid c a) (hf : ¬a.stale) (hn : rn.log.Numbered) :
    rn.log.Ordered := by
  rw [RaftLog.Ordered, List.pairwise_iff_getElem]
  intro i j hl hl' hij
  rw [h.slot_term hi (List.getElem?_eq_getElem hl), h.slot_term hi (List.getElem?_eq_getElem hl')]
  apply termBefore_mono hi hf (by omega)
  rw [RaftLog.slots, List.length_cons] at hl'
  rw [h.length hi hn, hn.lastLogIndex_eq]
  omega

theorem entryAt (h : NodeRel a n rn) (hi : Valid c a) {i : ℕ} (hb : rn.log.base < i) :
    rn.log.entryAt i = (a.log n)[i - 1]? := by
  rw [rn.log.entryAt_above hb, h.getElem?_above hi (by omega)]
  congr 1
  omega

theorem entry_of_term (h : NodeRel a n rn) (hi : Valid c a) {i t : ℕ} (hb : rn.log.base < i)
    (ht : rn.log.termAt i = some t) : ∃ e, (a.log n)[i - 1]? = some e ∧ e.term = t := by
  rw [RaftLog.termAt_eq, h.entryAt hi hb] at ht
  exact Option.map_eq_some_iff.mp ht

/-- A log agrees up to an entry with the log of the leader of the entry's term. -/
theorem follows_leader (h : NodeRel a n rn) (hi : Valid c a) (hf : ¬a.stale) {i t : ℕ}
    (hb : rn.log.base < i) (ht : rn.log.termAt i = some t) :
    (a.log n).take i = (a.leaderLog t).take i := by
  obtain ⟨e, he, rfl⟩ := h.entry_of_term hi hb ht
  have hmatch := Invariant.fresh_match hi hf he
  rwa [Nat.sub_add_cancel (by omega)] at hmatch

theorem matching (h : NodeRel a n rn) (h' : NodeRel a m rm) (hi : Valid c a) (hf : ¬a.stale) :
    Matching rn.log rm.log := by
  intro i t hb hb' ht ht' j hj hj' hji
  have htake := (h.follows_leader hi hf hb ht).trans (h'.follows_leader hi hf hb' ht').symm
  rw [h.entryAt hi hj, h'.entryAt hi hj', getElem?_of_take_eq htake (by omega)]

theorem sharedTerms (h : NodeRel a n rn) (h' : NodeRel a m rm) (hi : Valid c a) (hf : ¬a.stale)
    (hn : rn.log.Numbered) : SharedTerms rn.log rm.log := by
  intro j k t hj hb hjk hk htj htk
  have hlead := take_prefix_of_take_eq (h.follows_leader hi hf hk htk) hjk
  have htake := hlead.trans (h'.follows_leader hi hf hj htj).symm
  obtain ⟨x, hx, _⟩ := h.entry_of_term hi hk htk
  obtain ⟨y, hy, rfl⟩ := h'.entry_of_term hi hj htj
  have hlen := lt_of_getElem? hx
  rw [h.length hi hn] at hlen
  rw [h.termAt hi hn hb (by omega), show j = j - 1 + 1 by omega, termBefore,
    getElem?_of_take_eq htake (by omega), hy]
  rfl

theorem committed_take (h : NodeRel a m rm) (hi : Valid c a) (hf : ¬a.stale) {T : ℕ}
    (hwon : a.winner T ≠ none) (hle : rm.currentTerm ≤ T) :
    a.chosen.take rm.commitIndex = (a.leaderLog T).take rm.commitIndex := by
  rw [← h.commit]
  apply Invariant.covered_take hi hwon
  refine (Invariant.fresh_cover hi hf m).mono (fun _ => id) (fun t ht => ?_) le_rfl
  rw [h.term] at ht
  exact ht.trans hle

theorem history_leader (h : NodeRel a m rm) (hi : Valid c a) (hf : ¬a.stale) (hw : rm.Wf) {T : ℕ}
    (hwon : a.winner T ≠ none) (hle : rm.currentTerm ≤ T) :
    rm.log.history (a.leaderLog T) = a.log m := by
  have hbelow := take_prefix_of_take_eq (h.committed_take hi hf hwon hle) hw.base_le
  rw [RaftLog.history, ← hbelow, h.log]

theorem contained (h : NodeRel a m rm) (hi : Valid c a) (hf : ¬a.stale) (hw : rm.Wf) {T : ℕ}
    (hwon : a.winner T ≠ none) (hle : rm.currentTerm ≤ T) : Contained (a.leaderLog T) rm := by
  have hchosen := h.committed_take hi hf hwon hle
  constructor
  · exact hw
  · rw [h.sentinel, termBefore_congr (take_prefix_of_take_eq hchosen hw.base_le)]
  · have hlen := congrArg List.length hchosen
    have hle := Invariant.commit_le_chosen hi m
    rw [h.commit] at hle
    rw [List.length_take, List.length_take] at hlen
    omega
  · rw [h.history_leader hi hf hw hwon hle, ← hchosen]
    exact Invariant.take_commit hi m h.commit.ge

theorem term_pos (h : NodeRel a n rn) (hi : Valid c a) (hz : NoneStoodAtZero a) :
    ∀ e ∈ rn.log.entries, 1 ≤ e.term := by
  intro e he
  obtain ⟨k, hk⟩ := List.getElem?_of_mem he
  have hlog : (a.log n)[rn.log.base + k]? = some e := by
    rw [h.getElem?_above hi (Nat.le_add_right _ _), Nat.add_sub_cancel_left]
    exact hk
  exact Invariant.won_pos hi hz (Invariant.log_term_won hi hlog)

end NodeRel

/-- What is known of a state that a run with orderly snapshots reaches. -/
structure Orderly (M : StateMachine σ D) (c : ValidCluster) (settings : NodeId → Config)
    (s : System σ D) (a : Abstract) : Prop where
  sim : Sim (Represents.nothing M) c settings True s a
  stood : NoneStoodAtZero a
  bounded : Bounded s

theorem exists_orderly (h : Runs (System.step M c settings) LoadsWhileLeading System.init s) :
    ∃ a, Orderly M c settings s a := by
  obtain ⟨a, he, hs⟩ := (Sim.init (Represents.nothing M) c settings True).runs
    (fun hok _ => hok) h
  obtain ⟨_, _, hb⟩ := bounded_of_runs (h.mono fun _ _ _ => trivial)
  have hinit : NoneStoodAtZero (initial NodeId LogEntry) := fun _ => rfl
  exact ⟨a, hs, he.keeps (initial_invariant _ _) (hs.unstale trivial) hinit
    fun _ _ hz hst => hst.noneStoodAtZero hz, hb⟩

namespace Orderly

variable {p q : Proc σ D}

theorem related (h : Orderly M c settings s a) (hp : (s.hosts n).proc = some p) :
    Related c True n a p.node :=
  (h.sim.related (h.sim.member hp) hp).2.1

theorem configured (h : Orderly M c settings s a) (hp : (s.hosts n).proc = some p) :
    Configured c n p.node :=
  (h.sim.related (h.sim.member hp) hp).2.2

/-- A leader and a running peer in no later term are a pair that the search for a common index
can start from. -/
theorem paired (h : Orderly M c settings s a) (hp : (s.hosts n).proc = some p)
    (hq : (s.hosts m).proc = some q) (hne : m ≠ n) (hlead : p.node.state = .leader)
    (hrun : p.node.stopped = false) (hrun' : q.node.stopped = false)
    (hle : q.node.currentTerm ≤ p.node.currentTerm) :
    Paired (a.leaderLog p.node.currentTerm) m p.node q.node ∧
      (∀ e ∈ q.node.log.entries, 1 ≤ e.term) ∧ SharedTerms p.node.log q.node.log := by
  have hrel := h.related hp
  have hrel' := h.related hq
  have hi := hrel.valid
  have hf := hrel.unstale trivial
  obtain ⟨_, hwin, hlog, _⟩ := hrel.leads hlead
  have hwon : a.winner p.node.currentTerm ≠ none := by simp [hwin]
  have hpeer : m ∈ p.node.peers := by
    rw [(h.configured hp).peers]
    exact ValidCluster.mem_peerIDs.mpr ⟨h.sim.member hq, hne⟩
  refine ⟨?_, hrel'.node.term_pos hi h.stood,
    hrel.node.sharedTerms hrel'.node hi hf hrel.wf.numbered⟩
  constructor
  · exact hlead
  · exact ⟨hrun, hrun'⟩
  · exact hle
  · exact (h.bounded.reach n p hp hlead m hpeer).2.1
  · rw [hrel.node.history_leader hi hf hrel.wf hwon le_rfl, hlog]
  · exact hrel.node.contained hi hf hrel.wf hwon le_rfl
  · exact hrel'.node.contained hi hf hrel'.wf hwon hle
  · exact ⟨hrel.node.ordered hi hf hrel.wf.numbered, hrel'.node.ordered hi hf hrel'.wf.numbered⟩
  · exact hrel.node.matching hrel'.node hi hf

end Orderly

end Raft
