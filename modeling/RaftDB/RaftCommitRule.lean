import RaftDB.RaftAppendSpec
import Mathlib.Order.Bounds.Basic
import Mathlib.Data.List.Perm.Basic

/-!
# The commit rule

The leader scans its log from the end for an index of its own term that a majority holds, and
gives up at the first entry of another term. In a log whose terms are ordered that early exit
misses nothing. The scan only ever sees a set of matched indices that has grown, so it makes no
difference in which order the acknowledgments came in, or how often it ran in between.
-/
namespace Raft

open Storage
open RaftNode hiding id

variable {D : Type}

section Scan

variable {rn : RaftNode D} {n c : ℕ}

/-- An index that the scan stops at: all entries from it on are of the current term, and a
majority holds it. -/
def RaftNode.ScanHits (rn : RaftNode D) (n : ℕ) : Prop :=
  rn.commitIndex < n ∧ n ≤ rn.log.lastLogIndex ∧
    (∀ j, n ≤ j → j ≤ rn.log.lastLogIndex → rn.log.termAt j = some rn.currentTerm) ∧
    rn.quorum ≤ rn.replicatedOn n

def RaftNode.ScansTo (rn : RaftNode D) (c : ℕ) : Prop :=
  (c = rn.commitIndex ∧ ∀ n, ¬rn.ScanHits n) ∨ IsGreatest {n | rn.ScanHits n} c

theorem RaftNode.ScansTo.unique {c' : ℕ} (h : rn.ScansTo c) (h' : rn.ScansTo c') : c = c' := by
  rcases h with ⟨rfl, hnone⟩ | hc <;> rcases h' with ⟨rfl, hnone'⟩ | hc'
  · rfl
  · exact absurd hc'.1 (hnone _)
  · exact absurd hc.1 (hnone' _)
  · exact hc.unique hc'

theorem commitScan_scansTo (hn : rn.log.Numbered) (hb : rn.log.base ≤ rn.commitIndex)
    (hl : n ≤ rn.log.lastLogIndex)
    (hpassed : ∀ j, n < j → j ≤ rn.log.lastLogIndex → rn.log.termAt j = some rn.currentTerm)
    (hmiss : ∀ m, rn.ScanHits m → m ≤ n) : ∃ m, rn.commitScan n = .ok m ∧ rn.ScansTo m := by
  induction n with
  | zero =>
    refine ⟨rn.commitIndex, rfl, Or.inl ⟨rfl, fun m hm => ?_⟩⟩
    have h₁ := hmiss m hm
    have h₂ := hm.1
    omega
  | succ n ih =>
    rw [commitScan]
    by_cases hc : n + 1 ≤ rn.commitIndex
    · rw [if_pos hc]
      refine ⟨rn.commitIndex, rfl, Or.inl ⟨rfl, fun m hm => ?_⟩⟩
      have h₁ := hmiss m hm
      have h₂ := hm.1
      omega
    rw [if_neg hc]
    obtain ⟨t, ht⟩ := hn.termAt_isSome (i := n + 1) (by omega) hl
    simp only [ht]
    by_cases hterm : t = rn.currentTerm
    · have hrun : ∀ j, n + 1 ≤ j → j ≤ rn.log.lastLogIndex →
          rn.log.termAt j = some rn.currentTerm := by
        intro j hj hjl
        rcases Nat.lt_or_eq_of_le hj with hlt | rfl
        · exact hpassed j hlt hjl
        · rw [ht, hterm]
      by_cases hq : rn.replicatedOn (n + 1) ≥ rn.quorum
      · refine ⟨n + 1, by simp [hterm, hq], Or.inr ⟨⟨by omega, hl, hrun, hq⟩, hmiss⟩⟩
      · obtain ⟨m, hm, hto⟩ := ih (by omega) (fun j hj => hrun j hj) fun m hm => by
          have hle := hmiss m hm
          have hne : m ≠ n + 1 := fun heq => hq (heq ▸ hm.2.2.2)
          omega
        exact ⟨m, by simp [hterm, hq, hm], hto⟩
    · refine ⟨rn.commitIndex, by simp [hterm], Or.inl ⟨rfl, fun m hm => ?_⟩⟩
      have hrun := hm.2.2.1 (n + 1) (hmiss m hm) hl
      rw [ht] at hrun
      exact hterm (Option.some.inj hrun)

theorem advanceCommitIndexLocked_scansTo (hlead : rn.state = .leader) (hn : rn.log.Numbered)
    (hb : rn.log.base ≤ rn.commitIndex) :
    ∃ m, rn.advanceCommitIndexLocked = .ok { rn with commitIndex := m } ∧ rn.ScansTo m := by
  obtain ⟨m, hm, hto⟩ := commitScan_scansTo hn hb le_rfl (fun j hlt hle => by omega)
    fun m hm => hm.2.1
  refine ⟨m, ?_, hto⟩
  rw [advanceCommitIndexLocked, if_neg (by simp [hlead]), hm]

/-- The indices that the commit rule allows. -/
def RaftNode.Committable (rn : RaftNode D) (n : ℕ) : Prop :=
  rn.commitIndex < n ∧ n ≤ rn.log.lastLogIndex ∧ rn.log.termAt n = some rn.currentTerm ∧
    rn.quorum ≤ 1 + (rn.peers.filter fun peer => n ≤ rn.matchIndex peer).length

theorem scanHits_iff
    (hordered : ∀ i j t u, rn.commitIndex < i → i ≤ j → rn.log.termAt i = some t →
      rn.log.termAt j = some u → t ≤ u)
    (hbounded : ∀ i t, rn.commitIndex < i → rn.log.termAt i = some t → t ≤ rn.currentTerm)
    (hn : rn.log.Numbered) (hb : rn.log.base ≤ rn.commitIndex) :
    rn.ScanHits n ↔ rn.Committable n := by
  constructor
  · rintro ⟨hc, hl, hrun, hq⟩
    exact ⟨hc, hl, hrun n le_rfl hl, hq⟩
  · rintro ⟨hc, hl, ht, hq⟩
    refine ⟨hc, hl, fun j hnj hj => ?_, hq⟩
    obtain ⟨u, hu⟩ := hn.termAt_isSome (i := j) (by omega) hj
    have hge := hordered n j _ u hc hnj ht hu
    have hle := hbounded j u (by omega) hu
    rw [hu, Nat.le_antisymm hle hge]

/-- With ordered terms up to the current one above the commit index, the scan commits through the
greatest index that the rule allows, and leaves the commit index alone if there is none. -/
theorem commit_scan_is_commit_rule (rn : RaftNode D) (hlead : rn.state = .leader)
    (hn : rn.log.Numbered) (hb : rn.log.base ≤ rn.commitIndex)
    (hordered : ∀ i j t u, rn.commitIndex < i → i ≤ j → rn.log.termAt i = some t →
      rn.log.termAt j = some u → t ≤ u)
    (hbounded : ∀ i t, rn.commitIndex < i → rn.log.termAt i = some t → t ≤ rn.currentTerm) :
    ∃ c, rn.advanceCommitIndexLocked = .ok { rn with commitIndex := c } ∧
      (IsGreatest {n | rn.Committable n} c ∨
        c = rn.commitIndex ∧ ∀ n, ¬rn.Committable n) := by
  obtain ⟨c, heq, hto⟩ := advanceCommitIndexLocked_scansTo hlead hn hb
  have hiff : ∀ n, rn.ScanHits n ↔ rn.Committable n := fun n =>
    scanHits_iff hordered hbounded hn hb
  simp only [RaftNode.ScansTo, hiff] at hto
  exact ⟨c, heq, hto.symm⟩

def countingLeader : RaftNode Unit :=
  { followerWith 2 ⟨⟨0, 0, []⟩, [⟨1, 1, [1]⟩, ⟨2, 2, [2]⟩, ⟨2, 3, [3]⟩]⟩ 0 with
    cfg := ⟨"n1", ["n2", "n3"], 0, 0, 0, 0, 0⟩
    state := .leader
    matchIndex := fun peer => if peer = "n2" then 3 else 1 }

theorem commit_scan_is_commit_rule_counting :
    ∃ c, countingLeader.advanceCommitIndexLocked = .ok { countingLeader with commitIndex := c } ∧
      countingLeader.Committable 3 ∧ ¬countingLeader.Committable 1 ∧
      IsGreatest {n | countingLeader.Committable n} c := by
  have hthree : countingLeader.Committable 3 := ⟨by decide, by decide, by decide, by decide⟩
  have hone : ¬countingLeader.Committable 1 := fun h => absurd h.2.2.1 (by decide)
  have hordered : countingLeader.log.Ordered := by decide
  have hbounded : ∀ e ∈ countingLeader.log.slots, e.term ≤ 2 := by decide
  obtain ⟨c, heq, hgreatest | ⟨_, hnone⟩⟩ := commit_scan_is_commit_rule countingLeader rfl
    (by decide) (by decide) (fun i j t u _ => hordered.termAt_le (Nat.zero_le i))
    (fun i t _ ht => by
      obtain ⟨e, he, rfl⟩ := Option.map_eq_some_iff.mp ht
      exact hbounded e (List.mem_of_getElem? he))
  · exact ⟨c, heq, hthree, hone, hgreatest⟩
  · exact absurd hthree (hnone 3)

end Scan

section Order

structure Acknowledgment where
  peer : NodeId
  args : AppendEntriesArgs
  reply : AppendEntriesReply
  deriving DecidableEq, Repr

def Acknowledgment.matched (a : Acknowledgment) : ℕ := a.args.prevLogIndex + a.args.entries.length

def RaftNode.digest (rn : RaftNode D) (a : Acknowledgment) : Except Panic (RaftNode D) :=
  (rn.handleAppendEntriesReply a.peer a.args.term a.args a.reply).result.map Prod.fst

def RaftNode.digestAll (rn : RaftNode D) : List Acknowledgment → Except Panic (RaftNode D)
  | [] => .ok rn
  | a :: rest =>
    match rn.digest a with
    | .error p => .error p
    | .ok rn => rn.digestAll rest

def raise (term : ℕ) (m : NodeId → ℕ) (a : Acknowledgment) : NodeId → ℕ :=
  if a.args.term = term ∧ a.reply.success = true then
    Function.update m a.peer (max (m a.peer) a.matched)
  else m

variable {rn u : RaftNode D} {m m' : NodeId → ℕ} {c c' term : ℕ} {a b : Acknowledgment}

theorem raise_comm (m : NodeId → ℕ) (a b : Acknowledgment) :
    raise term (raise term m a) b = raise term (raise term m b) a := by
  simp only [raise]
  split <;> split <;> try rfl
  by_cases hpeer : a.peer = b.peer
  · simp only [hpeer, Function.update_self, Function.update_idem]
    congr 1
    omega
  · rw [Function.update_of_ne (Ne.symm hpeer), Function.update_of_ne hpeer,
      Function.update_comm (Ne.symm hpeer)]

theorem replicatedOn_mono (hle : ∀ peer, m peer ≤ m' peer) (n : ℕ) :
    RaftNode.replicatedOn { rn with matchIndex := m } n ≤
      RaftNode.replicatedOn { rn with matchIndex := m' } n := by
  apply Nat.add_le_add_left
  apply List.Sublist.length_le
  apply List.monotone_filter_right
  intro peer hpeer
  simp only [decide_eq_true_eq] at hpeer ⊢
  exact hpeer.trans (hle peer)

/-- A scan in between makes no difference to a later one that sees at least as much. -/
theorem scansTo_collapse (hle : ∀ peer, m peer ≤ m' peer)
    (h : RaftNode.ScansTo { rn with matchIndex := m } c)
    (h' : RaftNode.ScansTo { rn with matchIndex := m', commitIndex := c } c') :
    RaftNode.ScansTo { rn with matchIndex := m' } c' := by
  rcases h with ⟨rfl, _⟩ | hc
  · exact h'
  have hhit : RaftNode.ScanHits { rn with matchIndex := m' } c :=
    ⟨hc.1.1, hc.1.2.1, hc.1.2.2.1, hc.1.2.2.2.trans (replicatedOn_mono hle c)⟩
  right
  rcases h' with ⟨rfl, hnone⟩ | hc'
  · refine ⟨hhit, fun n hn => ?_⟩
    by_contra hlt
    exact hnone n ⟨not_le.mp hlt, hn.2⟩
  · refine ⟨⟨hhit.1.trans hc'.1.1, hc'.1.2⟩, fun n hn => ?_⟩
    by_contra hlt
    have hge : c < n := hc'.1.1.trans (not_le.mp hlt)
    exact hlt (hc'.2 ⟨hge, hn.2⟩)

def RaftNode.acknowledged (rn : RaftNode D) (next m : NodeId → ℕ) (c : ℕ) : RaftNode D :=
  { rn with nextIndex := next, matchIndex := m, commitIndex := c }

/-- The commit index under replies that have raised the matched indices to `m`: one scan with `m`
gives it, unless nothing was raised. -/
structure Digested (rn : RaftNode D) (m : NodeId → ℕ) (c : ℕ) : Prop where
  grown : ∀ peer, rn.matchIndex peer ≤ m peer
  commit_le : rn.commitIndex ≤ c
  commit : m = rn.matchIndex ∧ c = rn.commitIndex ∨
    m ≠ rn.matchIndex ∧ RaftNode.ScansTo { rn with matchIndex := m } c

theorem RaftNode.ScansTo.commit_le (h : rn.ScansTo c) : rn.commitIndex ≤ c := by
  rcases h with ⟨rfl, _⟩ | hc
  · exact le_rfl
  · exact hc.1.1.le

theorem Digested.raised (h : Digested rn m c) {peer : NodeId} {k : ℕ} (hk : m peer < k)
    (hto : RaftNode.ScansTo
      { rn with matchIndex := Function.update m peer k, commitIndex := c } c') :
    Digested rn (Function.update m peer k) c' := by
  have hle : ∀ q, m q ≤ Function.update m peer k q := by
    intro q
    by_cases hq : q = peer
    · subst hq
      rw [Function.update_self]
      exact hk.le
    · rw [Function.update_of_ne hq]
  constructor
  · exact fun q => (h.grown q).trans (hle q)
  · exact h.commit_le.trans hto.commit_le
  · right
    constructor
    · intro heq
      have hgrown := h.grown peer
      rw [← heq, Function.update_self] at hgrown
      omega
    · rcases h.commit with ⟨rfl, rfl⟩ | ⟨_, hold⟩
      · exact hto
      · exact scansTo_collapse hle hold hto

theorem Digested.digest (h : Digested rn m c) (next : NodeId → ℕ) (hrun : rn.stopped = false)
    (hlead : rn.state = .leader) (hn : rn.log.Numbered) (hb : rn.log.base ≤ rn.commitIndex)
    (ha : a.reply.term ≤ rn.currentTerm) :
    ∃ next' c', (rn.acknowledged next m c).digest a =
        .ok (rn.acknowledged next' (raise rn.currentTerm m a) c') ∧
      Digested rn (raise rn.currentTerm m a) c' := by
  rw [RaftNode.digest, raise]
  by_cases hsame : a.args.term = rn.currentTerm
  · have htakes : (rn.acknowledged next m c).Takes a.args.term a.reply.term :=
      ⟨hrun, hlead, hsame.symm, ha⟩
    by_cases hok : a.reply.success = true
    · rw [if_pos ⟨hsame, hok⟩, handleAppendEntriesReply_confirmed htakes hok]
      by_cases hlt : m a.peer < a.matched
      · obtain ⟨c', hadv, hto⟩ := @advanceCommitIndexLocked_scansTo _
          ((rn.acknowledged next m c).caughtUpTo a.peer a.matched) hlead hn
          (hb.trans h.commit_le)
        rw [if_pos (by exact hlt), Nat.max_eq_right hlt.le]
        refine ⟨Function.update next a.peer (a.matched + 1), c', ?_, h.raised hlt hto⟩
        rw [Acknowledgment.matched] at hadv
        rw [hadv]
        rfl
      · rw [if_neg (by exact hlt), Nat.max_eq_left (not_lt.mp hlt), Function.update_eq_self]
        exact ⟨next, c, rfl, h⟩
    · rw [if_neg (fun hand => hok hand.2),
        handleAppendEntriesReply_rejected htakes (by simpa using hok)]
      exact ⟨_, c, rfl, h⟩
  · rw [if_neg (fun hand => hsame hand.1)]
    refine ⟨next, c, ?_, h⟩
    have hold : (rn.acknowledged next m c).currentTerm ≠ a.args.term := Ne.symm hsame
    rw [handleAppendEntriesReply_stale hold ha]
    rfl

/-- Replies taken in one after the other: the matched indices are raised by each of them, and the
commit index is what they come to in the end. -/
theorem Digested.digestAll (h : Digested rn m c) (next : NodeId → ℕ) (hrun : rn.stopped = false)
    (hlead : rn.state = .leader) (hn : rn.log.Numbered) (hb : rn.log.base ≤ rn.commitIndex)
    {as : List Acknowledgment} (has : ∀ a ∈ as, a.reply.term ≤ rn.currentTerm) :
    ∃ next' c', (rn.acknowledged next m c).digestAll as =
        .ok (rn.acknowledged next' (as.foldl (raise rn.currentTerm) m) c') ∧
      Digested rn (as.foldl (raise rn.currentTerm) m) c' := by
  induction as generalizing m c next with
  | nil => exact ⟨next, c, rfl, h⟩
  | cons a rest ih =>
    obtain ⟨next₁, c₁, heq, h₁⟩ := h.digest next hrun hlead hn hb (has a (by simp))
    obtain ⟨next₂, c₂, heq₂, h₂⟩ := ih h₁ next₁ fun b hb => has b (List.mem_cons_of_mem _ hb)
    refine ⟨next₂, c₂, ?_, h₂⟩
    rw [RaftNode.digestAll, heq]
    exact heq₂

theorem Digested.unique (h : Digested rn m c) (h' : Digested rn m c') : c = c' := by
  rcases h.commit with ⟨hm, rfl⟩ | ⟨hm, hto⟩ <;> rcases h'.commit with ⟨hm', rfl⟩ | ⟨hm', hto'⟩
  · rfl
  · exact absurd hm hm'
  · exact absurd hm' hm
  · exact hto.unique hto'

theorem digestAll_stopped (hstop : rn.stopped = true) (as : List Acknowledgment) :
    rn.digestAll as = .ok rn := by
  induction as with
  | nil => rfl
  | cons a rest ih =>
    have hdigest : rn.digest a = .ok rn := by
      rw [RaftNode.digest, handleAppendEntriesReply, if_pos hstop]
      rfl
    rw [RaftNode.digestAll, hdigest]
    exact ih

/-- The order in which replies come in makes no difference to what the leader has matched and
committed in the end. -/
theorem acknowledgment_order_irrelevant (rn : RaftNode D) (hlead : rn.state = .leader)
    (hn : rn.log.Numbered) (hb : rn.log.base ≤ rn.commitIndex) {as bs : List Acknowledgment}
    (hperm : as.Perm bs) (has : ∀ a ∈ as, a.reply.term ≤ rn.currentTerm) :
    ∃ u v, rn.digestAll as = .ok u ∧ rn.digestAll bs = .ok v ∧
      u.matchIndex = v.matchIndex ∧ u.commitIndex = v.commitIndex := by
  cases hstop : rn.stopped with
  | true => exact ⟨rn, rn, digestAll_stopped hstop as, digestAll_stopped hstop bs, rfl, rfl⟩
  | false =>
    have hstart : Digested rn rn.matchIndex rn.commitIndex :=
      ⟨fun _ => le_rfl, le_rfl, Or.inl ⟨rfl, rfl⟩⟩
    obtain ⟨next, c, heq, h⟩ := hstart.digestAll rn.nextIndex hstop hlead hn hb has
    obtain ⟨next', c', heq', h'⟩ := hstart.digestAll rn.nextIndex hstop hlead hn hb
      fun b hb => has b (hperm.mem_iff.mpr hb)
    have hfold : as.foldl (raise rn.currentTerm) rn.matchIndex =
        bs.foldl (raise rn.currentTerm) rn.matchIndex :=
      hperm.foldl_eq' (fun a _ b _ m => raise_comm m a b) _
    rw [← hfold] at heq' h'
    exact ⟨_, _, heq, heq', rfl, h.unique h'⟩

def repliesOfTwo : List Acknowledgment :=
  [⟨"n3", ⟨2, "n1", 1, 1, [⟨2, 2, [2]⟩], 0⟩, { term := 2, success := true }⟩,
    ⟨"n3", ⟨2, "n1", 2, 2, [], 0⟩, { term := 2, conflictIndex := 2 }⟩,
    ⟨"n2", ⟨2, "n1", 0, 0, [⟨1, 1, [1]⟩, ⟨2, 2, [2]⟩], 0⟩, { term := 2, success := true }⟩]

theorem acknowledgment_order_irrelevant_reversed :
    ∃ u v, countingLeader.digestAll repliesOfTwo = .ok u ∧
      countingLeader.digestAll repliesOfTwo.reverse = .ok v ∧
      u.matchIndex = v.matchIndex ∧ u.commitIndex = v.commitIndex :=
  acknowledgment_order_irrelevant countingLeader rfl (by decide) (by decide)
    repliesOfTwo.reverse_perm.symm (by decide)

end Order

end Raft
