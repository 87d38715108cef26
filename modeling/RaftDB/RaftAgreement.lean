import RaftDB.RaftAppendSpec
import RaftDB.RaftNodeRelation

/-!
# Leader traffic in any order

One follower and the requests of one leader, cut from its log at any time, delivered in any order
and any number of times. The follower may still hold entries of other leaders, as long as an entry
that it shares with this leader comes with everything before it. Then the index through which the
two logs agree only grows: what a request finds held agrees already, and what it replaces did not.
-/
namespace Raft

open Storage LogPrefix ReplicatedLog TransitionSystem
open RaftNode hiding id

variable {D : Type}

/-- The last index through which the log agrees with the leader's, counting what the boundary
covers. -/
def agreement (LL : List LogEntry) (log : RaftLog) : ℕ := commonLength (log.history LL) LL

/-- The boundary and the committed entries of the follower are the leader's. -/
structure Contained (LL : List LogEntry) (rn : RaftNode D) : Prop where
  wf : rn.Wf
  boundary : rn.log.sentinel.term = termBefore LogEntry.term LL rn.log.base
  commit_le : rn.commitIndex ≤ LL.length
  committed : (rn.log.history LL).take rn.commitIndex = LL.take rn.commitIndex

/-- The follower's log goes with the leader's: an entry with the index and term of one of the
leader's comes with the same predecessors. -/
structure Consistent (LL : List LogEntry) (rn : RaftNode D) : Prop extends Contained LL rn where
  matching : ∀ (i : ℕ) e e', (rn.log.history LL)[i]? = some e → LL[i]? = some e' →
    e.term = e'.term → (rn.log.history LL).take (i + 1) = LL.take (i + 1)

section Reading

variable {LL : List LogEntry} {rn rn' : RaftNode D} {log : RaftLog} {j : ℕ}

/-- The agreement is the largest index through which both logs have the same entries. -/
theorem agreement_isGreatest (LL : List LogEntry) (log : RaftLog) :
    IsGreatest {j | j ≤ (log.history LL).length ∧ j ≤ LL.length ∧
      (log.history LL).take j = LL.take j} (agreement LL log) :=
  ⟨le_commonLength.mp le_rfl, fun _ hj => le_commonLength.mpr hj⟩

theorem base_le_agreement (hb : log.base ≤ LL.length) : log.base ≤ agreement LL log := by
  refine le_commonLength.mpr ⟨?_, hb, RaftLog.history_take_base hb le_rfl⟩
  simp [RaftLog.history, hb]

theorem agreement_of_history {n : ℕ} (h : log.history LL = LL.take n) (hn : n ≤ LL.length) :
    agreement LL log = n := by
  apply le_antisymm
  · rw [agreement, h]
    exact commonLength_le.1.trans (by simp)
  · refine le_commonLength.mpr ⟨?_, hn, ?_⟩
    · simp [h, hn]
    · simp [h]

namespace Contained

theorem base_le (h : Contained LL rn) : rn.log.base ≤ LL.length := h.wf.base_le.trans h.commit_le

theorem length (h : Contained LL rn) : (rn.log.history LL).length = rn.log.lastLogIndex :=
  RaftLog.history_length h.base_le h.wf.numbered

theorem agreement_le (h : Contained LL rn) :
    agreement LL rn.log ≤ rn.log.lastLogIndex ∧ agreement LL rn.log ≤ LL.length := by
  rw [← h.length]
  exact commonLength_le

theorem commit_agrees (h : Contained LL rn) : rn.commitIndex ≤ agreement LL rn.log := by
  refine le_commonLength.mpr ⟨?_, h.commit_le, h.committed⟩
  rw [h.length]
  exact h.wf.commit_le

theorem term_of_agrees (h : Contained LL rn) (hb : rn.log.base ≤ j)
    (hj : j ≤ agreement LL rn.log) :
    rn.log.termAt j = some (termBefore LogEntry.term LL j) := by
  obtain ⟨hlen, _, htake⟩ := le_commonLength.mp hj
  rw [h.length] at hlen
  rw [termAt_history h.wf.numbered h.base_le h.boundary hb hlen, termBefore_congr htake]

theorem of_same (h : Contained LL rn)
    (hlog : rn'.log = rn.log) (hcommit : rn'.commitIndex = rn.commitIndex) :
    Contained LL rn' := by
  obtain ⟨⟨hn, hb, hc⟩, hboundary, hle, hcommitted⟩ := h
  rw [← hlog] at hn hb hc hboundary hcommitted
  rw [← hcommit] at hb hc hle hcommitted
  exact ⟨⟨hn, hb, hc⟩, hboundary, hle, hcommitted⟩

end Contained

namespace Consistent

theorem agrees_of_term (h : Consistent LL rn) (hb : rn.log.base ≤ j)
    (hl : j ≤ rn.log.lastLogIndex) (hj : j ≤ LL.length)
    (hterm : rn.log.termAt j = some (termBefore LogEntry.term LL j)) :
    j ≤ agreement LL rn.log := by
  rcases Nat.lt_or_eq_of_le hb with hlt | rfl
  · obtain ⟨k, rfl⟩ : ∃ k, j = k + 1 := ⟨j - 1, by omega⟩
    have hk : k < (rn.log.history LL).length := by rw [h.length]; omega
    rw [termAt_history h.wf.numbered h.base_le h.boundary hb hl] at hterm
    have hget := List.getElem?_eq_getElem hk
    have hget' := List.getElem?_eq_getElem hj
    simp only [termBefore, hget, hget', Option.map_some, Option.getD_some,
      Option.some.injEq] at hterm
    exact le_commonLength.mpr ⟨hk, hj, h.matching k _ _ hget hget' hterm⟩
  · exact base_le_agreement h.base_le

theorem of_same (h : Consistent LL rn) (hlog : rn'.log = rn.log)
    (hcommit : rn'.commitIndex = rn.commitIndex) : Consistent LL rn' := by
  refine ⟨h.toContained.of_same hlog hcommit, ?_⟩
  rw [hlog]
  exact h.matching

theorem commit (h : Consistent LL rn) (hlog : rn'.log = rn.log)
    (hmono : rn.commitIndex ≤ rn'.commitIndex)
    (hle : rn'.commitIndex ≤ agreement LL rn.log) : Consistent LL rn' := by
  obtain ⟨hlen, hLL, htake⟩ := le_commonLength.mp hle
  rw [h.length] at hlen
  refine ⟨⟨⟨?_, ?_, ?_⟩, ?_, hLL, ?_⟩, ?_⟩ <;> rw [hlog]
  · exact h.wf.numbered
  · exact h.wf.base_le.trans hmono
  · exact hlen
  · exact h.boundary
  · exact htake
  · exact h.matching

theorem replaced {n : ℕ} (hn : rn'.log.Numbered) (hLL : n ≤ LL.length)
    (hbase : rn'.log.base ≤ rn'.commitIndex) (hcommit : rn'.commitIndex ≤ n)
    (hboundary : rn'.log.sentinel.term = termBefore LogEntry.term LL rn'.log.base)
    (hhist : rn'.log.history LL = LL.take n) : Consistent LL rn' := by
  have hlen : (rn'.log.history LL).length = _ := RaftLog.history_length (by omega) hn
  rw [hhist, List.length_take, Nat.min_eq_left hLL] at hlen
  refine ⟨⟨⟨hn, hbase, by omega⟩, hboundary, by omega, ?_⟩, ?_⟩
  · rw [hhist, List.take_take, Nat.min_eq_left hcommit]
  · intro i e e' he _ _
    rw [hhist] at he ⊢
    have hi := lt_of_getElem? he
    rw [List.length_take] at hi
    rw [List.take_take, Nat.min_eq_left (by omega)]

end Consistent

end Reading

section Requests

inductive LeaderRequest (D : Type) where
  | append (args : AppendEntriesArgs)
  | install (args : InstallSnapshotArgs D)
  deriving DecidableEq, Repr

def RaftNode.receive (rn : RaftNode D) : LeaderRequest D → Except Panic (RaftNode D × Bool)
  | .append args => (rn.handleAppendEntries args).result.map fun (rn, reply) =>
      (rn, reply.success)
  | .install args => (rn.handleInstallSnapshot args).result.map fun (rn, _) => (rn, false)

/-- A request of the term that was cut from the leader's log: any segment of it with what comes
before, or a snapshot of something committed. -/
def CutFrom (LL : List LogEntry) (term committed : ℕ) : LeaderRequest D → Prop
  | .append args => args.term = term ∧ args.prevLogIndex ≤ LL.length ∧
      args.prevLogTerm = termBefore LogEntry.term LL args.prevLogIndex ∧
      (∃ n, args.entries = (LL.drop args.prevLogIndex).take n) ∧ args.leaderCommit ≤ committed
  | .install args => args.term = term ∧ args.lastIncludedIndex ≤ committed ∧
      args.lastIncludedTerm = termBefore LogEntry.term LL args.lastIncludedIndex

def LeaderRequest.reach : LeaderRequest D → ℕ
  | .append args => args.prevLogIndex + args.entries.length
  | .install args => args.lastIncludedIndex

variable {LL : List LogEntry} {rn rn' : RaftNode D} {args : AppendEntriesArgs}
  {install : InstallSnapshotArgs D} {term committed : ℕ} {skipped : List LogEntry}

theorem Consistent.held_agrees (h : Consistent LL rn) (hLL : Consecutive 0 LL) {prev : ℕ}
    (hprev : prev ≤ agreement LL rn.log) (hc : Consecutive prev skipped)
    (hcut : ∀ e ∈ skipped, e ∈ LL) (hheld : ∀ e ∈ skipped, Held rn.log e) :
    prev + skipped.length ≤ agreement LL rn.log := by
  cases hlast : skipped.getLast? with
  | none =>
    rw [List.getLast?_eq_none_iff] at hlast
    simpa [hlast] using hprev
  | some e =>
    have hmem := List.mem_of_getLast? hlast
    rw [← hc.last_index hlast]
    by_cases hb : e.index ≤ rn.log.base
    · exact hb.trans (base_le_agreement h.base_le)
    · obtain ⟨k, hk⟩ := List.mem_iff_getElem?.mp (hcut e hmem)
      have hindex : e.index = k + 1 := by simpa using hLL.index_eq hk
      rcases hheld e hmem with hle | ⟨hl, hterm⟩
      · exact absurd hle hb
      · apply h.agrees_of_term (by omega) hl
        · rw [hindex]
          exact lt_of_getElem? hk
        · rw [hterm, hindex, termBefore, hk, Option.map_some, Option.getD_some]

theorem Consistent.prev_agrees (h : Consistent LL rn) (hle : args.prevLogIndex ≤ LL.length)
    (hterm : args.prevLogTerm = termBefore LogEntry.term LL args.prevLogIndex)
    (hp : rn.PrevMatches args) : args.prevLogIndex ≤ agreement LL rn.log := by
  rcases hp with hlt | ⟨hl, ht⟩
  · exact hlt.le.trans (base_le_agreement h.base_le)
  · by_cases hb : rn.log.base ≤ args.prevLogIndex
    · exact h.agrees_of_term hb hl hle (by rw [ht, hterm])
    · exact (not_le.mp hb).le.trans (base_le_agreement h.base_le)

theorem Consistent.beyond_agreement (h : Consistent LL rn) (hLL : Consecutive 0 LL)
    {e : LogEntry} (he : e ∈ LL) (hb : rn.log.base < e.index)
    (hne : rn.log.termAt e.index ≠ some e.term) : agreement LL rn.log < e.index := by
  by_contra hle
  obtain ⟨k, hk⟩ := List.mem_iff_getElem?.mp he
  have hindex : e.index = k + 1 := by simpa using hLL.index_eq hk
  apply hne
  rw [h.term_of_agrees hb.le (not_lt.mp hle), hindex, termBefore, hk, Option.map_some,
    Option.getD_some]

theorem rest_of_cut {n prev : ℕ} {es new : List LogEntry} (h : es = (LL.drop prev).take n)
    (hle : prev ≤ LL.length) (hsplit : es = skipped ++ new) :
    new = (LL.drop (prev + skipped.length)).take new.length ∧
      prev + es.length ≤ LL.length := by
  have hnew : new = ((LL.drop prev).take n).drop skipped.length := by
    rw [← h, hsplit, List.drop_left]
  rw [List.drop_take, List.drop_drop] at hnew
  constructor
  · nth_rewrite 1 [hnew]
    rw [hnew, List.length_take, List.take_eq_take_min]
  · rw [h, List.length_take, List.length_drop]
    omega

/-- Where the agreement ends, the log is continued with the leader's next entries. -/
theorem Consistent.splice (h : Consistent LL rn) {k : ℕ} {new : List LogEntry}
    (hk : agreement LL rn.log = rn.log.base + k)
    (hnew : new = (LL.drop (rn.log.base + k)).take new.length)
    (hr : rn.log.base + k + new.length ≤ LL.length)
    (hlog : rn'.log = ⟨rn.log.sentinel, rn.log.entries.take k ++ new⟩)
    (hn : rn'.log.Numbered) (hcommit : rn'.commitIndex = rn.commitIndex) :
    Consistent LL rn' ∧ agreement LL rn'.log = rn.log.base + k + new.length := by
  have hhist : rn'.log.history LL = LL.take (rn.log.base + k + new.length) := by
    rw [hlog, RaftLog.history_cut h.base_le, ← hk, agreement, take_commonLength]
    rw [← agreement, hk]
    nth_rewrite 1 [hnew]
    exact List.take_add.symm
  have hbase : rn'.log.base = rn.log.base := by rw [hlog]; rfl
  have hagrees := h.commit_agrees
  refine ⟨.replaced hn hr ?_ ?_ ?_ hhist, agreement_of_history hhist hr⟩
  · rw [hbase, hcommit]
    exact h.wf.base_le
  · omega
  · rw [hbase, hlog]
    exact h.boundary

theorem Consistent.walked (h : Consistent LL rn) (hLL : Consecutive 0 LL) {n : ℕ}
    (hle : args.prevLogIndex ≤ LL.length)
    (hterm : args.prevLogTerm = termBefore LogEntry.term LL args.prevLogIndex)
    (hcut : args.entries = (LL.drop args.prevLogIndex).take n) (hp : rn.PrevMatches args)
    {writes : List (StoreWrite D)} {u : Unit}
    (hw : WalkOutcome rn args args.entries (.done rn' writes u)) :
    Consistent LL rn' ∧ rn'.commitIndex = rn.commitIndex ∧
      agreement LL rn.log ≤ agreement LL rn'.log ∧
      args.prevLogIndex + args.entries.length ≤ agreement LL rn'.log := by
  have hprev := h.prev_agrees hle hterm hp
  have hmem : ∀ e ∈ args.entries, e ∈ LL := by
    intro e he
    rw [hcut] at he
    exact List.mem_of_mem_drop (List.mem_of_mem_take he)
  have hc : Consecutive args.prevLogIndex args.entries := by
    have hdrop := (hLL.drop hle).take n
    rwa [← hcut, Nat.zero_add] at hdrop
  have hmerged := hw.merged h.wf.numbered hc (hp.le_last h.wf.numbered)
  have hlast := h.wf.numbered.lastLogIndex_eq
  have hag := h.agreement_le.1
  rcases hw.done_cases h.wf.numbered with ⟨heq, _, hheld⟩ | ⟨skipped, new, k, hsp, heq, _⟩
  · rw [heq]
    exact ⟨h, rfl, le_rfl, h.held_agrees hLL hprev hc hmem hheld⟩
  · have hstart := hsp.start hc
    obtain ⟨hrest, hreach⟩ := rest_of_cut hcut hle hsp.split
    rw [hsp.split] at hc hmem
    have hskip := h.held_agrees hLL hprev (consecutive_append.mp hc).1
      (fun e he => hmem e (List.mem_append_left _ he)) hsp.held
    have hk : agreement LL rn.log = rn.log.base + k := by
      rcases hsp.place with hend | ⟨_, _, e, rest, rfl, hne⟩
      · omega
      · have hindex := hsp.numbered.1
        have hconf := h.beyond_agreement hLL (hmem e (by simp)) (by omega) hne
        omega
    have hlen : args.entries.length = skipped.length + new.length := by
      rw [hsp.split, List.length_append]
    rw [hstart] at hrest
    have hs := h.splice hk hrest (by omega) (by rw [heq]) hmerged.1.numbered (by rw [heq])
    refine ⟨hs.1, by rw [heq], ?_, ?_⟩ <;> rw [hs.2] <;> omega

theorem Consistent.not_refused (h : Consistent LL rn) (hLL : Consecutive 0 LL)
    (hmem : ∀ e ∈ args.entries, e ∈ LL) {writes : List (StoreWrite D)} {e : Panic} :
    ¬WalkOutcome rn args args.entries ⟨writes, .error e⟩ := by
  intro hw
  obtain ⟨i, ⟨hb, _, e, he, rfl, hne⟩, hle⟩ := hw.refused_conflict
  have hbeyond := h.beyond_agreement hLL (hmem e he) hb hne
  have hcommit := h.commit_agrees
  omega

/-- What a request of the leader does to a follower: no panic, and no loss of ground. -/
structure Gains (LL : List LogEntry) (rn rn' : RaftNode D) (success : Bool) (reach : ℕ) :
    Prop where
  consistent : Consistent LL rn'
  agreement_le : agreement LL rn.log ≤ agreement LL rn'.log
  commit_le : rn.commitIndex ≤ rn'.commitIndex
  reached : success = true → reach ≤ agreement LL rn'.log

theorem Consistent.acceptEntries (h : Consistent LL rn) (hLL : Consecutive 0 LL)
    (hcut : CutFrom (D := D) LL term committed (.append args)) :
    ∃ rn' writes reply, rn.acceptEntries args = .done rn' writes reply ∧
      Gains LL rn rn' reply.success (args.prevLogIndex + args.entries.length) := by
  obtain ⟨_, hle, hterm, ⟨n, hentries⟩, _⟩ := hcut
  have hmem : ∀ e ∈ args.entries, e ∈ LL := by
    intro e he
    rw [hentries] at he
    exact List.mem_of_mem_drop (List.mem_of_mem_take he)
  have hc : Consecutive args.prevLogIndex args.entries := by
    have hdrop := (hLL.drop hle).take n
    rwa [← hentries, Nat.zero_add] at hdrop
  rcases acceptEntries_cases h.wf.numbered hc with ⟨_, reply, heq, _, hs⟩ | ⟨hp, walk, hw, hends⟩
  · refine ⟨rn, [], reply, heq, h, le_rfl, le_rfl, fun hok => ?_⟩
    rw [hs] at hok
    cases hok
  · rcases hends with ⟨e, rfl, _⟩ | ⟨rn₁, writes, rfl, heq⟩
    · exact absurd hw (h.not_refused hLL hmem)
    · obtain ⟨h₁, hcommit, hag, hreach⟩ := h.walked hLL hle hterm hentries hp hw
      rw [advanceFollowerCommit_eq] at heq
      have hagrees := h₁.commit_agrees
      refine ⟨_, writes, _, heq, h₁.commit rfl ?_ ?_, hag, ?_, fun _ => hreach⟩
      · exact Nat.le_max_left _ _
      · exact Nat.max_le.mpr ⟨hagrees, (Nat.min_le_right _ _).trans hreach⟩
      · rw [← hcommit]
        exact Nat.le_max_left _ _

theorem Consistent.acceptSnapshot (h : Consistent LL rn)
    (hle : install.lastIncludedIndex ≤ LL.length)
    (hterm : install.lastIncludedTerm =
      termBefore LogEntry.term LL install.lastIncludedIndex) :
    ∃ rn' writes reply, rn.acceptSnapshot install = .done rn' writes reply ∧
      Gains LL rn rn' false install.lastIncludedIndex := by
  rw [acceptSnapshot_eq h.wf.numbered]
  by_cases hold : install.lastIncludedIndex ≤ rn.commitIndex
  · rw [if_pos hold]
    exact ⟨_, _, _, rfl, h, le_rfl, le_rfl, fun hok => absurd hok (by simp)⟩
  rw [if_neg hold]
  have hbase : rn.log.base ≤ install.lastIncludedIndex := by
    have := h.wf.base_le
    omega
  have hn : (rn.installedSnapshot install.snapshot).log.Numbered :=
    suffixBeyond_consecutive h.wf.numbered _ _
  have hbl := hn.base_le_last
  refine ⟨_, _, _, rfl, ?_⟩
  have hgains : Consistent LL (rn.installedSnapshot install.snapshot) ∧
      agreement LL rn.log ≤ agreement LL (rn.installedSnapshot install.snapshot).log := by
    by_cases hkept : rn.log.base ≤ install.lastIncludedIndex ∧
        install.lastIncludedIndex ≤ rn.log.lastLogIndex ∧
        rn.log.termAt install.lastIncludedIndex = some install.lastIncludedTerm
    · have hagrees := h.agrees_of_term hbase hkept.2.1 hle (by rw [hkept.2.2, hterm])
      have hhist : (rn.installedSnapshot install.snapshot).log.history LL =
          rn.log.history LL := by
        rw [RaftLog.history, installedSnapshot]
        change LL.take install.lastIncludedIndex ++
          rn.suffixBeyond install.lastIncludedIndex install.lastIncludedTerm = _
        rw [suffixBeyond, if_pos hkept, ← RaftLog.history_drop h.base_le hbase,
          ← (le_commonLength.mp hagrees).2.2, List.take_append_drop]
      refine ⟨⟨⟨⟨hn, le_rfl, hbl⟩, hterm, hle, ?_⟩, ?_⟩, ?_⟩
      · rw [hhist]
        exact (le_commonLength.mp hagrees).2.2
      · rw [hhist]
        exact h.matching
      · rw [agreement, agreement, hhist]
    · have hhist : (rn.installedSnapshot install.snapshot).log.history LL =
          LL.take install.lastIncludedIndex := by
        rw [RaftLog.history, installedSnapshot]
        change LL.take install.lastIncludedIndex ++
          rn.suffixBeyond install.lastIncludedIndex install.lastIncludedTerm = _
        rw [suffixBeyond, if_neg hkept, List.append_nil]
      refine ⟨.replaced hn hle le_rfl le_rfl hterm hhist, ?_⟩
      rw [agreement_of_history hhist hle]
      by_contra hlt
      have hagrees := (not_le.mp hlt).le
      exact hkept ⟨hbase, hagrees.trans h.agreement_le.1, by
        rw [h.term_of_agrees hbase hagrees, hterm]⟩
  exact ⟨hgains.1, hgains.2, (not_le.mp hold).le, fun hok => absurd hok (by simp)⟩

/-- One request, whatever the follower has seen before. -/
theorem Consistent.receive (h : Consistent LL rn) (hLL : Consecutive 0 LL)
    (hcommitted : committed ≤ LL.length) {r : LeaderRequest D}
    (hcut : CutFrom LL term committed r) :
    ∃ rn' success, rn.receive r = .ok (rn', success) ∧ Gains LL rn rn' success r.reach := by
  cases r with
  | append args =>
    rw [RaftNode.receive, handleAppendEntries_eq]
    split
    · exact ⟨_, _, rfl, h, le_rfl, le_rfl, fun hok => absurd hok (by simp)⟩
    · have hf : Consistent LL (rn.followerOf args.term args.leaderID) :=
        h.of_same (followerOf_log _ _ _) (followerOf_commitIndex _ _ _)
      obtain ⟨rn', writes, reply, heq, hgains⟩ := hf.acceptEntries hLL hcut
      rw [heq]
      refine ⟨rn', reply.success, rfl, hgains.consistent, ?_, ?_, hgains.reached⟩
      · simpa using hgains.agreement_le
      · simpa using hgains.commit_le
  | install args =>
    rw [RaftNode.receive, handleInstallSnapshot_eq]
    split
    · exact ⟨_, _, rfl, h, le_rfl, le_rfl, fun hok => absurd hok (by simp)⟩
    · have hf : Consistent LL (rn.followerOf args.term args.leaderID) :=
        h.of_same (followerOf_log _ _ _) (followerOf_commitIndex _ _ _)
      obtain ⟨rn', writes, reply, heq, hgains⟩ :=
        hf.acceptSnapshot (hcut.2.1.trans hcommitted) hcut.2.2
      rw [heq]
      refine ⟨rn', false, rfl, hgains.consistent, ?_, ?_, fun hok => absurd hok (by simp)⟩
      · simpa using hgains.agreement_le
      · simpa using hgains.commit_le

def RaftNode.received (rn : RaftNode D) (r : LeaderRequest D) : Option (RaftNode D) :=
  (rn.receive r).toOption.map Prod.fst

theorem gains_of_received (h : Consistent LL rn) (hLL : Consecutive 0 LL)
    (hcommitted : committed ≤ LL.length) {r : LeaderRequest D}
    (hcut : CutFrom LL term committed r) (hr : rn.received r = some rn') :
    ∃ success, Gains LL rn rn' success r.reach := by
  obtain ⟨rn₁, success, heq, hgains⟩ := h.receive hLL hcommitted hcut
  simp only [RaftNode.received, heq, Except.toOption, Option.map_some, Option.some.injEq] at hr
  subst hr
  exact ⟨success, hgains⟩

/-- Along any sequence of the leader's requests the follower agrees with the leader through ever
later indices, and its commit index follows without overtaking; no request brings it down, and one
that it confirms it holds to its end. -/
theorem leader_traffic_keeps_ground {LL : List LogEntry} (hLL : Consecutive 0 LL)
    {committed : ℕ} (hcommitted : committed ≤ LL.length) (term : ℕ) {rn u : RaftNode D}
    (h : Consistent LL rn)
    (hrun : Runs RaftNode.received (fun _ => CutFrom LL term committed) rn u) :
    agreement LL rn.log ≤ agreement LL u.log ∧ rn.commitIndex ≤ u.commitIndex ∧
    u.commitIndex ≤ agreement LL u.log ∧
    ∀ r, CutFrom LL term committed r → ∃ v success, u.receive r = .ok (v, success) ∧
      agreement LL u.log ≤ agreement LL v.log ∧
      (success = true → r.reach ≤ agreement LL v.log) ∧
      u.commitIndex ≤ v.commitIndex ∧ v.commitIndex ≤ agreement LL v.log := by
  have hreached : Consistent LL u ∧ agreement LL rn.log ≤ agreement LL u.log ∧
      rn.commitIndex ≤ u.commitIndex := by
    induction hrun with
    | refl => exact ⟨h, le_rfl, le_rfl⟩
    | tail _ hcut hr ih =>
      obtain ⟨hc, hag, hcommit⟩ := ih
      obtain ⟨_, hgains⟩ := gains_of_received hc hLL hcommitted hcut hr
      exact ⟨hgains.consistent, hag.trans hgains.agreement_le, hcommit.trans hgains.commit_le⟩
  obtain ⟨hc, hag, hcommit⟩ := hreached
  refine ⟨hag, hcommit, hc.commit_agrees, ?_⟩
  intro r hcut
  obtain ⟨v, success, heq, hgains⟩ := hc.receive hLL hcommitted hcut
  exact ⟨v, success, heq, hgains.agreement_le, hgains.reached, hgains.commit_le,
    hgains.consistent.commit_agrees⟩

def leaderOfThree : List LogEntry := [⟨1, 1, [1]⟩, ⟨1, 2, [2]⟩, ⟨3, 3, [3]⟩, ⟨3, 4, [4]⟩]

def divergedFollower : RaftNode Unit :=
  followerWith 2 ⟨⟨1, 1, []⟩, [⟨1, 2, [2]⟩, ⟨2, 3, [5]⟩, ⟨2, 4, [6]⟩]⟩ 1

theorem divergedFollower_consistent : Consistent leaderOfThree divergedFollower := by
  refine ⟨⟨⟨by decide, by decide, by decide⟩, by decide, by decide, by decide⟩, ?_⟩
  intro i e e' he he' hterm
  rcases i with _ | _ | _ | _ | i
  · rfl
  · rfl
  · cases he
    cases he'
    cases hterm
  · cases he
    cases he'
    cases hterm
  · cases he'

def lastSegment : LeaderRequest Unit := .append ⟨3, "n1", 2, 1, [⟨3, 3, [3]⟩, ⟨3, 4, [4]⟩], 2⟩

def shuffledTraffic : List (LeaderRequest Unit) :=
  [lastSegment, .append ⟨3, "n1", 0, 0, [⟨1, 1, [1]⟩], 0⟩,
    .install ⟨3, "n1", 3, 3, 0, (), true⟩, .append ⟨3, "n1", 1, 1, [⟨1, 2, [2]⟩, ⟨3, 3, [3]⟩], 3⟩]

theorem shuffledTraffic_cut : ∀ r ∈ shuffledTraffic, CutFrom leaderOfThree 3 3 r := by
  intro r hr
  simp only [shuffledTraffic, List.mem_cons, List.not_mem_nil, or_false] at hr
  rcases hr with rfl | rfl | rfl | rfl
  · exact ⟨rfl, by decide, rfl, ⟨2, rfl⟩, by decide⟩
  · exact ⟨rfl, by decide, rfl, ⟨1, rfl⟩, by decide⟩
  · exact ⟨rfl, by decide, rfl⟩
  · exact ⟨rfl, by decide, rfl, ⟨2, rfl⟩, by decide⟩

theorem leader_traffic_keeps_ground_shuffled :
    ∃ u v, exec RaftNode.received (fun _ r => decide (r ∈ shuffledTraffic)) divergedFollower
        shuffledTraffic = some u ∧
      agreement leaderOfThree divergedFollower.log = 2 ∧ 2 ≤ agreement leaderOfThree u.log ∧
      u.receive lastSegment = .ok (v, true) ∧
      4 ≤ agreement leaderOfThree v.log ∧ v.commitIndex ≤ agreement leaderOfThree v.log := by
  have hrun : ((exec RaftNode.received (fun _ r => decide (r ∈ shuffledTraffic)) divergedFollower
      shuffledTraffic).any fun u =>
        match u.receive lastSegment with
        | .ok (_, success) => success
        | .error _ => false) = true := by decide +kernel
  obtain ⟨u, hu, hok⟩ := (Option.any_eq_true _ _).mp hrun
  have hstart : agreement leaderOfThree divergedFollower.log = 2 := by decide
  obtain ⟨hag, _, _, hnext⟩ := leader_traffic_keeps_ground (by decide) (by decide) 3
    divergedFollower_consistent
    (runs_of_exec (fun _ r hr => shuffledTraffic_cut r (of_decide_eq_true hr)) _ hu)
  obtain ⟨v, success, heq, _, hreach, _, hcommit⟩ := hnext _
    (shuffledTraffic_cut lastSegment (by simp [shuffledTraffic]))
  rw [heq] at hok
  subst hok
  exact ⟨u, v, hu, hstart, hstart ▸ hag, heq, hreach rfl, hcommit⟩

end Requests

end Raft
