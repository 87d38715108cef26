import RaftDB.ClusterConfig
import RaftDB.RaftInvariant
import RaftDB.ReplicatedLogHistory

/-!
# Nodes as members of the abstract protocol

A node stands for its abstract counterpart: same term, role, vote and commit index, and the
abstract log is the chosen prefix below the boundary followed by the entries. The boundary's
term is that of the last chosen entry it covers, so the sentinel answers elections and
consistency checks as the real entry would.
-/
namespace Raft

open Storage ClusterConfig ReplicatedLog MajorityQuorum LogPrefix
open RaftNode hiding id

variable {D : Type}

abbrev Abstract := ReplicatedLog.State NodeId LogEntry

abbrev Quorums (c : ValidCluster) : QuorumSystem NodeId := majority c.members

abbrev Valid (c : ValidCluster) (a : Abstract) : Prop := Invariant LogEntry.term (Quorums c) a

abbrev ActsAs (c : ValidCluster) (n : NodeId) (a a' : Abstract) : Prop :=
  Acts LogEntry.term (Quorums c) n a a'

abbrev EvolvesTo (c : ValidCluster) (a a' : Abstract) : Prop :=
  Evolves LogEntry.term (Quorums c) a a'

def State.role : State → Role
  | .follower => .follower
  | .candidate => .candidate
  | .leader => .leader

def voteOf (votedFor : NodeId) : Option NodeId :=
  if votedFor = None then none else some votedFor

theorem voteOf_eq {candidate : NodeId} (h : candidate ≠ "") : voteOf candidate = some candidate :=
  if_neg h

def Indexed (a : Abstract) : Prop :=
  ∀ {T i : ℕ} {e}, (a.leaderLog T)[i]? = some e → e.index = i + 1

structure NodeRel (a : Abstract) (n : NodeId) (rn : RaftNode D) : Prop where
  term : a.term n = rn.currentTerm
  role : a.role n = rn.state.role
  voted : a.voted n rn.currentTerm = voteOf rn.votedFor
  base : a.base n = rn.log.base
  commit : a.commit n = rn.commitIndex
  log : a.log n = a.chosen.take rn.log.base ++ rn.log.entries
  sentinel : rn.log.sentinel.term = termBefore LogEntry.term a.chosen rn.log.base

/-- What a leader believes about a peer is confirmed, unless it is below its own commit
index, where it no longer matters. -/
def Matched (a : Abstract) (rn : RaftNode D) : Prop :=
  rn.state = .leader → ∀ peer, rn.matchIndex peer ≤ a.confirmed peer rn.currentTerm ∨
    rn.matchIndex peer ≤ rn.commitIndex

section Terms

variable {E : Type*} {tm : E → ℕ} {l m : List E} {k : ℕ}

theorem termBefore_congr (h : l.take k = m.take k) : termBefore tm l k = termBefore tm m k := by
  cases k with
  | zero => rfl
  | succ k => rw [termBefore, termBefore, getElem?_of_take_eq h (Nat.lt_succ_self k)]

theorem termBefore_of_isPrefix (h : l <+: m) (hk : k ≤ l.length) :
    termBefore tm m k = termBefore tm l k :=
  termBefore_congr (take_of_isPrefix h hk)

theorem termBefore_length (l : List E) : termBefore tm l l.length = lastTerm tm l := by
  cases h : l.length with
  | zero =>
    rw [List.length_eq_zero_iff] at h
    simp [h, termBefore, lastTerm]
  | succ k => rw [termBefore, lastTerm, List.getLast?_eq_getElem?, h, Nat.add_sub_cancel]

/-- In a log whose sentinel carries the term below it, every slot tells the term of its index. -/
theorem termAt_history {log : RaftLog} {below : List LogEntry} {i : ℕ} (hn : log.Numbered)
    (hbelow : log.base ≤ below.length)
    (hs : log.sentinel.term = termBefore LogEntry.term below log.base) (hb : log.base ≤ i)
    (hl : i ≤ log.lastLogIndex) :
    log.termAt i = some (termBefore LogEntry.term (log.history below) i) := by
  rcases Nat.lt_or_eq_of_le hb with hlt | rfl
  · obtain ⟨k, rfl⟩ : ∃ k, i = k + 1 := ⟨i - 1, by omega⟩
    obtain ⟨t, ht⟩ := hn.termAt_isSome hb hl
    rw [ht]
    rw [log.termAt_above hlt, show k + 1 - log.base - 1 = k - log.base by omega,
      ← RaftLog.history_getElem? hbelow (by omega)] at ht
    rw [termBefore, ht, Option.getD_some]
  · rw [log.termAt_base, hs, termBefore_congr (RaftLog.history_take_base hbelow le_rfl)]

end Terms

section Reading

variable {c : ValidCluster} {a a' : Abstract} {n : NodeId} {rn : RaftNode D}

theorem Valid.chosen_index (hi : Valid c a) (hx : Indexed a) {i : ℕ} {e : LogEntry}
    (he : a.chosen[i]? = some e) : e.index = i + 1 := by
  have hm := Invariant.chosen_match hi he
  exact hx (T := e.term) (by rw [← getElem?_of_take_eq hm (Nat.lt_succ_self i)]; exact he)

namespace NodeRel

theorem base_le (h : NodeRel a n rn) (hi : Valid c a) : rn.log.base ≤ a.chosen.length := by
  rw [← h.base]
  exact (Invariant.logs hi n).base_le.trans (Invariant.commit_le_chosen hi n)

theorem history (h : NodeRel a n rn) : a.log n = rn.log.history a.chosen := h.log

theorem length (h : NodeRel a n rn) (hi : Valid c a) (hn : rn.log.Numbered) :
    (a.log n).length = rn.log.lastLogIndex := by
  rw [h.history, RaftLog.history_length (h.base_le hi) hn]

theorem getElem?_above (h : NodeRel a n rn) (hi : Valid c a) {i : ℕ} (hb : rn.log.base ≤ i) :
    (a.log n)[i]? = rn.log.entries[i - rn.log.base]? := by
  rw [h.history, RaftLog.history_getElem? (h.base_le hi) hb]

theorem take_base (h : NodeRel a n rn) (hi : Valid c a) :
    (a.log n).take rn.log.base = a.chosen.take rn.log.base := by
  rw [h.history, RaftLog.history_take_base (h.base_le hi) le_rfl]

theorem drop (h : NodeRel a n rn) (hi : Valid c a) {i : ℕ} (hb : rn.log.base ≤ i) :
    (a.log n).drop i = rn.log.entries.drop (i - rn.log.base) := by
  rw [h.history, RaftLog.history_drop (h.base_le hi) hb]

theorem index_eq (h : NodeRel a n rn) (hi : Valid c a) (hx : Indexed a)
    (hn : rn.log.Numbered) {i : ℕ} {e : LogEntry} (he : (a.log n)[i]? = some e) :
    e.index = i + 1 := by
  by_cases hb : rn.log.base ≤ i
  · rw [h.getElem?_above hi hb] at he
    have := hn.index_eq he
    omega
  · rw [getElem?_of_take_eq (h.take_base hi) (not_le.mp hb)] at he
    exact Valid.chosen_index hi hx he

theorem termAt (h : NodeRel a n rn) (hi : Valid c a) (hn : rn.log.Numbered) {i : ℕ}
    (hb : rn.log.base ≤ i) (hl : i ≤ rn.log.lastLogIndex) :
    rn.log.termAt i = some (termBefore LogEntry.term (a.log n) i) := by
  rw [h.history]
  exact termAt_history hn (h.base_le hi) h.sentinel hb hl

theorem lastLogTerm (h : NodeRel a n rn) (hi : Valid c a) (hn : rn.log.Numbered) :
    rn.log.lastLogTerm = lastTerm LogEntry.term (a.log n) := by
  have hlast := hn.termAt_last
  rw [← termBefore_length, h.length hi hn]
  rw [h.termAt hi hn hn.base_le_last le_rfl] at hlast
  exact (Option.some.inj hlast).symm

theorem of_same {rn' : RaftNode D} (h : NodeRel a n rn) (hterm : rn'.currentTerm = rn.currentTerm)
    (hstate : rn'.state = rn.state) (hvoted : rn'.votedFor = rn.votedFor)
    (hlog : rn'.log = rn.log) (hcommit : rn'.commitIndex = rn.commitIndex) : NodeRel a n rn' :=
  ⟨by rw [hterm]; exact h.term, by rw [hstate]; exact h.role,
    by rw [hterm, hvoted]; exact h.voted, by rw [hlog]; exact h.base,
    by rw [hcommit]; exact h.commit, by rw [hlog]; exact h.log, by rw [hlog]; exact h.sentinel⟩

theorem other (h : NodeRel a n rn) (hi : Valid c a) (hg : Grows a a') (hu : Untouched n a a') :
    NodeRel a' n rn where
  term := hu.term.trans h.term
  role := hu.role.trans h.role
  voted := by rw [hu.voted]; exact h.voted
  base := hu.base.trans h.base
  commit := hu.commit.trans h.commit
  log := by rw [hu.log, h.log, take_of_isPrefix hg.chosen (h.base_le hi)]
  sentinel := by rw [h.sentinel, termBefore_of_isPrefix hg.chosen (h.base_le hi)]

end NodeRel

theorem Matched.mono (h : Matched a rn) (hg : Grows a a') : Matched a' rn := fun hs peer =>
  (h hs peer).imp_left fun hm => hm.trans (hg.confirmed peer _)

theorem Matched.of_follower (h : rn.state = .follower) : Matched a rn :=
  fun hs => absurd (h.symm.trans hs) (by decide)

end Reading

/-- The section's moves are moves of the abstract node, and the node it ends with is related
to their last state. Under `fresh` nothing stale is installed. -/
structure Simulates (c : ValidCluster) (fresh : Prop) (I : Snapshot D → Prop) (n : NodeId)
    (a : Abstract) (rn : RaftNode D) (ws : List (StoreWrite D)) (a' : Abstract)
    (rn' : RaftNode D) : Prop where
  moves : Moves I rn ws rn'
  acts : ActsAs c n a a'
  node : NodeRel a' n rn'
  indexed : Indexed a'
  matched : Matched a' rn'
  unstale : fresh → ¬a'.stale

structure Subdued (rn rn' : RaftNode D) : Prop where
  leader : rn'.state = .leader → rn.state = .leader ∧ rn'.commitIndex = rn.commitIndex
  candidate : rn'.state = .candidate → rn.state = .candidate ∧
    rn'.currentTerm = rn.currentTerm ∧ rn'.votes = rn.votes

/-- However the section ends, its writes are simulated; if it returns, with the node of the
simulation and the stated result. Under `fresh` it does not refuse a leader. -/
def Outcome.Simulated {ρ : Type} (c : ValidCluster) (fresh : Prop) (I : Snapshot D → Prop)
    (n : NodeId) (a : Abstract) (rn : RaftNode D) (o : Outcome D ρ)
    (post : Abstract → RaftNode D → ρ → Prop) : Prop :=
  ∃ a' rn', Simulates c fresh I n a rn o.writes a' rn' ∧
    (∀ x, o.result = .ok x → x.1 = rn' ∧ post a' rn' x.2) ∧
    ∀ e, o.result = .error e → fresh → e.refusal = false

section Composition

variable {ρ : Type} {c : ValidCluster} {fresh : Prop} {I : Snapshot D → Prop} {n : NodeId}
  {a a' a'' : Abstract} {rn rn' rn'' : RaftNode D} {ws ws' : List (StoreWrite D)}

theorem Simulates.trans (h : Simulates c fresh I n a rn ws a' rn')
    (k : Simulates c fresh I n a' rn' ws' a'' rn'') :
    Simulates c fresh I n a rn (ws ++ ws') a'' rn'' :=
  ⟨h.moves.trans k.moves, h.acts.trans k.acts, k.node, k.indexed, k.matched, k.unstale⟩

theorem Outcome.simulated_done {r : ρ} {post : Abstract → RaftNode D → ρ → Prop}
    (h : Simulates c fresh I n a rn ws a' rn') (hp : post a' rn' r) :
    Outcome.Simulated c fresh I n a rn (.done rn' ws r) post := by
  refine ⟨a', rn', h, ?_, by rintro _ ⟨⟩⟩
  rintro _ ⟨⟩
  exact ⟨rfl, hp⟩

theorem Outcome.simulated_error {e : Panic} {post : Abstract → RaftNode D → ρ → Prop}
    (h : Simulates c fresh I n a rn ws a' rn') (he : fresh → e.refusal = false) :
    Outcome.Simulated c fresh I n a rn ⟨ws, .error e⟩ post :=
  ⟨a', rn', h, by rintro _ ⟨⟩, by rintro _ ⟨⟩; exact he⟩

theorem Outcome.Simulated.after {o : Outcome D ρ} {post : Abstract → RaftNode D → ρ → Prop}
    (h : Simulates c fresh I n a rn ws a' rn') (ho : o.Simulated c fresh I n a' rn' post) :
    (o.after ws).Simulated c fresh I n a rn post := by
  obtain ⟨a'', rn'', hs, hp⟩ := ho
  exact ⟨a'', rn'', h.trans hs, hp⟩

theorem Outcome.Simulated.mono {o : Outcome D ρ} {post post' : Abstract → RaftNode D → ρ → Prop}
    (ho : o.Simulated c fresh I n a rn post)
    (hp : ∀ {a' rn' r}, post a' rn' r → post' a' rn' r) :
    o.Simulated c fresh I n a rn post' := by
  obtain ⟨a', rn', hs, hr, he⟩ := ho
  exact ⟨a', rn', hs, fun x hx => ⟨(hr x hx).1, hp (hr x hx).2⟩, he⟩

theorem Subdued.refl (rn : RaftNode D) : Subdued rn rn :=
  ⟨fun h => ⟨h, rfl⟩, fun h => ⟨h, rfl, rfl⟩⟩

theorem Subdued.of_follower (h : rn'.state = .follower) : Subdued rn rn' :=
  ⟨fun hs => by simp [h] at hs, fun hs => by simp [h] at hs⟩

end Composition

/-- A node together with its abstract counterpart, in a state that satisfies the protocol's
invariant: what every section starts from. -/
structure Related (c : ValidCluster) (fresh : Prop) (n : NodeId) (a : Abstract)
    (rn : RaftNode D) : Prop where
  valid : Valid c a
  wf : rn.Wf
  node : NodeRel a n rn
  indexed : Indexed a
  matched : Matched a rn
  unstale : fresh → ¬a.stale

section Following

open Function

variable {ρ : Type} {c : ValidCluster} {fresh : Prop} {I : Snapshot D → Prop} {n : NodeId}
  {a a' : Abstract} {rn rn' : RaftNode D} {ws : List (StoreWrite D)}

theorem Related.simulates_self (h : Related c fresh n a rn) :
    Simulates c fresh I n a rn [] a rn :=
  ⟨.refl, .refl n a, h.node, h.indexed, h.matched, h.unstale⟩

theorem Simulates.related (hs : Simulates c fresh I n a rn ws a' rn')
    (h : Related c fresh n a rn) : Related c fresh n a' rn' :=
  ⟨hs.acts.invariant h.valid, hs.moves.wf h.wf, hs.node, hs.indexed, hs.matched, hs.unstale⟩

def following (a : Abstract) (n : NodeId) (term : ℕ) : Abstract :=
  { a with term := update a.term n term, role := update a.role n .follower }

theorem acts_following (hi : Valid c a) {term : ℕ} (hle : a.term n ≤ term) :
    ActsAs c n a (following a n term) := by
  rcases Nat.lt_or_eq_of_le hle with hlt | rfl
  · exact .single (.observe a n term hlt)
  · have hstep : ActsAs c n a { a with
        role := update a.role n .follower, commit := update a.commit n (a.commit n) } :=
      .single (.relax a n _ (Invariant.logs hi n).base_le le_rfl)
    rw [update_eq_self] at hstep
    rw [following, update_eq_self]
    exact hstep

theorem NodeRel.following (h : NodeRel a n rn) (hi : Valid c a) {term : ℕ}
    (hle : rn.currentTerm ≤ term) (leaderID : NodeId) :
    NodeRel (following a n term) n (rn.followerOf term leaderID) := by
  have hcur : (rn.followerOf term leaderID).currentTerm = term := by
    change (rn.inTerm term).currentTerm = term
    rw [inTerm_currentTerm, Nat.max_eq_right hle]
  refine ⟨?_, ?_, ?_, ?_, ?_, ?_, ?_⟩
  · rw [hcur]
    exact update_self _ _ _
  · exact update_self _ _ _
  · rw [hcur]
    change a.voted n term = voteOf (rn.inTerm term).votedFor
    rcases Nat.lt_or_eq_of_le hle with hlt | rfl
    · rw [inTerm, if_pos hlt]
      cases hv : a.voted n term with
      | none => rfl
      | some d =>
        have := (Invariant.votes hi).vote_term hv
        rw [h.term] at this
        omega
    · rw [inTerm, if_neg (lt_irrefl _)]
      exact h.voted
  · rw [followerOf_log]
    exact h.base
  · rw [followerOf_commitIndex]
    exact h.commit
  · rw [followerOf_log]
    exact h.log
  · rw [followerOf_log]
    exact h.sentinel

theorem Related.follows (h : Related c fresh n a rn) {term : ℕ} (hle : rn.currentTerm ≤ term)
    (leaderID : NodeId) :
    Simulates c fresh I n a rn (rn.adoptWrites term) (following a n term)
      (rn.followerOf term leaderID) where
  moves := followerOf_moves rn term leaderID
  acts := acts_following h.valid (h.node.term.trans_le hle)
  node := h.node.following h.valid hle leaderID
  indexed := h.indexed
  matched := by rintro ⟨⟩
  unstale := h.unstale

theorem inTerm_of_lt {term : ℕ} (hlt : rn.currentTerm < term) :
    rn.inTerm term = rn.followerOf term None := by
  rw [followerOf, inTerm, if_pos hlt]

theorem subdued_inTerm (rn : RaftNode D) (term : ℕ) : Subdued rn (rn.inTerm term) := by
  by_cases hlt : rn.currentTerm < term
  · rw [inTerm_of_lt hlt]
    exact .of_follower rfl
  · rw [inTerm, if_neg hlt]
    exact .refl rn

theorem Related.adopts (h : Related c fresh n a rn) (term : ℕ) :
    ∃ a', Simulates c fresh I n a rn (rn.adoptWrites term) a' (rn.inTerm term) := by
  by_cases hlt : rn.currentTerm < term
  · rw [inTerm_of_lt hlt]
    exact ⟨_, h.follows hlt.le None⟩
  · rw [inTerm, adoptWrites, if_neg hlt, if_neg hlt]
    exact ⟨a, h.simulates_self⟩

theorem Related.steps_down (h : Related c fresh n a rn) {term : ℕ} (hlt : rn.currentTerm < term)
    {post : Abstract → RaftNode D → Unit → Prop}
    (hp : ∀ a' rn', rn'.state = .follower → post a' rn' ()) :
    Outcome.Simulated c fresh I n a rn
      (.done (rn.becomeFollowerLocked term).1 (rn.becomeFollowerLocked term).2 ()) post := by
  have heq := rn.adoptTerm_eq term
  rw [adoptTerm, if_pos hlt] at heq
  rw [heq, inTerm_of_lt hlt]
  exact Outcome.simulated_done (h.follows hlt.le None) (hp _ _ rfl)

end Following

end Raft
