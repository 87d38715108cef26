import RaftDB.RaftLeaderCompleteness
import RaftDB.ReplicatedLogFresh

/-!
# The order of terms in a log

The commit rule and the search for a retry position stop early because terms never decrease
along a log and never exceed the node's own term, the boundary included. That holds as long as
snapshots are loaded by a node that still leads the term of the request. A goroutine that
outlives its leadership hands the boundary of a later term to a node of its own.
-/
namespace Raft

open ClusterConfig ReplicatedLog LogPrefix TransitionSystem
open RaftNode hiding id

variable {σ D : Type} {M : StateMachine σ D} {c : ValidCluster} {settings : NodeId → Config}
  {s : System σ D} {a : Abstract} {n : NodeId} {rn : RaftNode D}

theorem exists_bounded_account
    (h : Runs (System.step M c settings) LoadsWhileLeading System.init s) :
    ∃ a, Sim (Represents.nothing M) c settings True s a ∧ TermBounded LogEntry.term a := by
  obtain ⟨a, he, hs⟩ := (Sim.init (Represents.nothing M) c settings True).runs
    (fun hok _ => hok) h
  have hinit : TermBounded LogEntry.term (initial NodeId LogEntry) := by
    rintro w e ⟨⟩
  exact ⟨a, hs, he.keeps (initial_invariant _ _) (hs.unstale trivial) hinit
    fun hi hf hb hst => hst.termBounded hi hf hb⟩

/-- Slot `k` carries the term of the entry before position `base + k`, sentinel included. -/
theorem NodeRel.slot_term (h : NodeRel a n rn) (hi : Valid c a) {k : ℕ} {e : LogEntry}
    (he : rn.log.slots[k]? = some e) :
    e.term = termBefore LogEntry.term (a.log n) (rn.log.base + k) := by
  cases k with
  | zero =>
    cases he
    rw [h.sentinel, Nat.add_zero, termBefore_congr (h.take_base hi)]
  | succ k =>
    have hk : (a.log n)[rn.log.base + k]? = some e := by
      rw [h.getElem?_above hi (Nat.le_add_right _ _), Nat.add_sub_cancel_left]
      exact he
    rw [← Nat.add_assoc, termBefore, hk]
    rfl

theorem termBefore_mono (hi : Valid c a) (hf : ¬a.stale) {i j : ℕ} (hij : i ≤ j)
    (hj : j ≤ (a.log n).length) :
    termBefore LogEntry.term (a.log n) i ≤ termBefore LogEntry.term (a.log n) j := by
  cases i with
  | zero => exact Nat.zero_le _
  | succ i =>
    obtain ⟨j, rfl⟩ : ∃ k, j = k + 1 := ⟨j - 1, by omega⟩
    have hx : (a.log n)[i]? = some (a.log n)[i] := List.getElem?_eq_getElem (by omega)
    have hy : (a.log n)[j]? = some (a.log n)[j] := List.getElem?_eq_getElem (by omega)
    rw [termBefore, termBefore, hx, hy]
    exact Invariant.log_sorted hi hf hx hy (by omega)

theorem termBefore_le (hb : TermBounded LogEntry.term a) (i : ℕ) :
    termBefore LogEntry.term (a.log n) i ≤ a.term n := by
  cases i with
  | zero => exact Nat.zero_le _
  | succ i =>
    rw [termBefore]
    cases hx : (a.log n)[i]? with
    | none => exact Nat.zero_le _
    | some e => exact hb n e (List.mem_of_getElem? hx)

/-- If snapshots are loaded only while the node leads the term of the request, terms do not
decrease from the boundary to the last entry, and none exceeds the term of the node. -/
theorem log_terms_ordered (M : StateMachine σ D) (c : ValidCluster) (settings : NodeId → Config)
    {s : System σ D} (hrun : Runs (System.step M c settings) LoadsWhileLeading System.init s)
    {n : NodeId} {p : Proc σ D} (hp : (s.hosts n).proc = some p) :
    (p.node.log.slots.Pairwise fun x y => x.term ≤ y.term) ∧
      ∀ e ∈ p.node.log.slots, e.term ≤ p.node.currentTerm := by
  obtain ⟨a, ha, hb⟩ := exists_bounded_account hrun
  obtain ⟨_, hrel, _⟩ := ha.related (ha.member hp) hp
  have hlen := hrel.node.length hrel.valid hrel.wf.numbered
  constructor
  · rw [List.pairwise_iff_getElem]
    intro i j hi hj hij
    rw [hrel.node.slot_term hrel.valid (List.getElem?_eq_getElem hi),
      hrel.node.slot_term hrel.valid (List.getElem?_eq_getElem hj)]
    refine termBefore_mono hrel.valid (hrel.unstale trivial) (by omega) ?_
    rw [RaftLog.slots, List.length_cons] at hj
    rw [hlen, hrel.wf.numbered.lastLogIndex_eq]
    omega
  · intro e he
    obtain ⟨k, hk⟩ := List.getElem?_of_mem he
    rw [hrel.node.slot_term hrel.valid hk, ← hrel.node.term]
    exact termBefore_le hb _

def trioOrders : List (Event (List LogEntry)) :=
  trioElects ++ ([.act "n1" (.propose [7]), .act "n1" (.replicate 1), .deliver 2, .receive 1,
    .act "n1" .applier, .act "n1" .applier, .act "n1" .applier, .act "n1" .applier,
    .act "n1" .applier, .act "n1" (.replicate 1), .loadSnapshot 0, .deliver 5,
    .act "n2" .electionTimeout, .deliver 7, .receive 3, .act "n2" (.propose [8]),
    .act "n2" (.replicate 2), .deliver 9] : List (Event (List LogEntry)))

theorem log_terms_ordered_trio :
    ∃ s p, exec (System.step recorder trio firstCompacts)
        (fun s e => decide (LoadsWhileLeading s e)) System.init trioOrders = some s ∧
      (s.hosts "n3").proc = some p ∧
      p.node.log.slots = [⟨1, 1, []⟩, ⟨2, 2, [8]⟩] ∧ p.node.currentTerm = 2 ∧
      (p.node.log.slots.Pairwise fun x y => x.term ≤ y.term) ∧
      ∀ e ∈ p.node.log.slots, e.term ≤ p.node.currentTerm := by
  have hslots : ((exec (System.step recorder trio firstCompacts)
      (fun s e => decide (LoadsWhileLeading s e)) System.init trioOrders).bind fun s =>
      (s.hosts "n3").proc.map fun p => (p.node.log.slots, p.node.currentTerm)) =
      some ([⟨1, 1, []⟩, ⟨2, 2, [8]⟩], 2) := by decide +kernel
  obtain ⟨s, hs, hmap⟩ := Option.bind_eq_some_iff.mp hslots
  obtain ⟨p, hp, hpair⟩ := Option.map_eq_some_iff.mp hmap
  obtain ⟨hlog, hterm⟩ := Prod.mk.inj hpair
  exact ⟨s, p, hs, hp, hlog, hterm, log_terms_ordered recorder trio firstCompacts
    (runs_of_exec (fun _ _ h => of_decide_eq_true h) _ hs) hp⟩

/-- The first member loads its snapshot for the third after it has lost its leadership and
followed another leader. -/
def trioOutlives : List (Event (List LogEntry)) :=
  trioElects ++ ([
    -- term 1: an entry is committed and compacted away, and a round launches the goroutine
    .act "n1" (.propose [7]), .act "n1" (.replicate 1), .deliver 2, .receive 1,
    .act "n1" .applier, .act "n1" .applier, .act "n1" .applier, .act "n1" .applier,
    .act "n1" .applier, .act "n1" (.replicate 1),
    -- term 2: the second member commits an entry of its own, and the first compacts again
    .act "n2" .electionTimeout, .deliver 5, .receive 2, .act "n2" (.propose [8]),
    .act "n2" (.replicate 2), .deliver 7, .receive 3, .act "n2" (.replicate 2), .deliver 9,
    .act "n1" .applier, .act "n1" .applier, .act "n1" .applier, .act "n1" .applier,
    .act "n1" .applier,
    -- the goroutine sends the boundary of term 2 under term 1
    .loadSnapshot 0, .deliver 11] : List (Event (List LogEntry)))

/-- The third member then has a boundary of term 2 while it is in term 1. -/
theorem boundary_beyond_term :
    ∃ s p, Runs (System.step recorder trio firstCompacts) Always System.init s ∧
      (s.hosts "n3").proc = some p ∧ p.node.log.sentinel.term = 2 ∧ p.node.currentTerm = 1 ∧
      ¬∀ e ∈ p.node.log.slots, e.term ≤ p.node.currentTerm := by
  have hslots : ((exec (System.step recorder trio firstCompacts) (fun _ _ => true)
      System.init trioOutlives).bind fun s =>
      (s.hosts "n3").proc.map fun p => (p.node.log.sentinel.term, p.node.currentTerm)) =
      some (2, 1) := by decide +kernel
  obtain ⟨s, hs, hmap⟩ := Option.bind_eq_some_iff.mp hslots
  obtain ⟨p, hp, hpair⟩ := Option.map_eq_some_iff.mp hmap
  obtain ⟨hsent, hterm⟩ := Prod.mk.inj hpair
  refine ⟨s, p, runs_of_exec (fun _ _ _ => trivial) _ hs, hp, hsent, hterm, fun hall => ?_⟩
  have hle := hall p.node.log.sentinel List.mem_cons_self
  rw [hsent, hterm] at hle
  exact absurd hle (by decide)

end Raft
