import RaftDB.RaftFrames

/-!
# The specification of the append handler

What a request does to the log, index by index. The walk skips what the log already has, so the
first conflict decides everything: below it nothing changes, and from it on the request takes the
place of the log. Without a conflict nothing is lost, not even beyond the end of the request.
-/
namespace Raft

open Storage
open RaftNode hiding id

variable {D : Type}

section Slots

variable {log : RaftLog} {i : ℕ}

/-- The entry in the slot of the index; slot 0 holds the sentinel. -/
def RaftLog.entryAt (log : RaftLog) (index : ℕ) : Option LogEntry :=
  log.slots[uint64Sub index log.base]?

theorem RaftLog.termAt_eq (log : RaftLog) (i : ℕ) :
    log.termAt i = (log.entryAt i).map LogEntry.term := rfl

theorem RaftLog.entryAt_above (log : RaftLog) (hi : log.base < i) :
    log.entryAt i = log.entries[i - log.base - 1]? := by
  obtain ⟨k, hk⟩ : ∃ k, i - log.base = k + 1 := ⟨i - log.base - 1, by omega⟩
  simp [entryAt, uint64Sub_of_le hi.le, slots, hk]

theorem RaftLog.entryAt_with (log : RaftLog) (entries : List LogEntry) (hi : log.base < i) :
    RaftLog.entryAt ⟨log.sentinel, entries⟩ i = entries[i - log.base - 1]? :=
  RaftLog.entryAt_above ⟨log.sentinel, entries⟩ hi

theorem RaftLog.Numbered.entryAt_isSome (h : log.Numbered) (hb : log.base < i)
    (hl : i ≤ log.lastLogIndex) : ∃ e, log.entryAt i = some e := by
  rw [h.lastLogIndex_eq] at hl
  rw [log.entryAt_above hb, List.getElem?_eq_getElem (by omega)]
  exact ⟨_, rfl⟩

theorem RaftLog.Numbered.entryAt_eq_none (h : log.Numbered) (hl : log.lastLogIndex < i) :
    log.entryAt i = none := by
  rw [h.lastLogIndex_eq] at hl
  rw [log.entryAt_above (by omega), List.getElem?_eq_none (by omega)]

end Slots

section Merge

/-- The request and the log have entries of different terms at the index. -/
def Conflicts (log : RaftLog) (es : List LogEntry) (i : ℕ) : Prop :=
  log.base < i ∧ i ≤ log.lastLogIndex ∧ ∃ e ∈ es, e.index = i ∧ log.termAt i ≠ some e.term

/-- What a log becomes under entries that follow the index `prev`. -/
structure Merged (log log' : RaftLog) (prev : ℕ) (es : List LogEntry) : Prop where
  sentinel : log'.sentinel = log.sentinel
  numbered : log'.Numbered
  reach : prev + es.length ≤ log'.lastLogIndex
  taken : ∀ e ∈ es, log.base < e.index → log'.entryAt e.index = some e ∨
    e.index ≤ log.lastLogIndex ∧ log.termAt e.index = some e.term ∧
      log'.entryAt e.index = log.entryAt e.index
  kept : ∀ j, log.base < j → j ≤ log.lastLogIndex → (∀ i, Conflicts log es i → j < i) →
    log'.entryAt j = log.entryAt j
  ends : ∀ i, Conflicts log es i → log'.lastLogIndex = prev + es.length

variable {log : RaftLog} {prev : ℕ} {es skipped new : List LogEntry}

theorem Conflicts.not_held {i : ℕ} (h : Conflicts log es i) :
    ∃ e ∈ es, e.index = i ∧ ¬Held log e := by
  obtain ⟨hb, hl, e, he, rfl, hne⟩ := h
  refine ⟨e, he, rfl, ?_⟩
  rintro (hle | ⟨_, heq⟩)
  · omega
  · exact hne heq

theorem Conflicts.beyond {i n : ℕ} (h : Conflicts log (skipped ++ new) i)
    (hs : ∀ e ∈ skipped, Held log e) (hc : Consecutive n new) : n < i := by
  obtain ⟨e, he, rfl, hheld⟩ := h.not_held
  rcases List.mem_append.mp he with he | he
  · exact absurd (hs e he) hheld
  · exact (hc.index_bounds he).1

theorem Merged.given {log' : RaftLog} (h : Merged log log' prev es) {e : LogEntry} (he : e ∈ es)
    (hb : log.base < e.index) : log'.termAt e.index = some e.term := by
  rw [RaftLog.termAt_eq]
  rcases h.taken e he hb with heq | ⟨_, hterm, heq⟩
  · rw [heq, Option.map_some]
  · rw [heq, ← RaftLog.termAt_eq, hterm]

theorem merged_of_held (hn : log.Numbered) (hle : prev ≤ log.lastLogIndex)
    (hc : Consecutive prev es) (hs : ∀ e ∈ es, Held log e) : Merged log log prev es := by
  have hnone : ∀ i, ¬Conflicts log es i := by
    intro i hi
    obtain ⟨e, he, _, hheld⟩ := hi.not_held
    exact hheld (hs e he)
  constructor
  · rfl
  · exact hn
  · exact reach_of_held hn hle hc hs
  · intro e he hb
    rcases hs e he with hle | ⟨hl, hterm⟩
    · omega
    · exact Or.inr ⟨hl, hterm, rfl⟩
  · intro j _ _ _
    rfl
  · intro i hi
    exact absurd hi (hnone i)

theorem merged_of_spliced (hn : log.Numbered) {k : ℕ} (hk : k ≤ log.entries.length)
    (hc : Consecutive prev (skipped ++ new)) (hs : ∀ e ∈ skipped, Held log e) (hne : new ≠ [])
    (hnew : Consecutive (log.base + k) new)
    (hcut : k = log.entries.length ∨ Conflicts log (skipped ++ new) (log.base + k + 1)) :
    Merged log ⟨log.sentinel, log.entries.take k ++ new⟩ prev (skipped ++ new) := by
  have hlen : (log.entries.take k).length = k := by simp [hk]
  have hlast := hn.lastLogIndex_eq
  have hstart : prev + skipped.length = log.base + k := by
    obtain ⟨e, rest, rfl⟩ := List.exists_cons_of_ne_nil hne
    have h₁ := (consecutive_append.mp hc).2.1
    have h₂ := hnew.1
    omega
  have hnum : RaftLog.Numbered ⟨log.sentinel, log.entries.take k ++ new⟩ := by
    apply consecutive_append.mpr
    rw [hlen]
    exact ⟨Consecutive.take hn k, hnew⟩
  have hreach : RaftLog.lastLogIndex ⟨log.sentinel, log.entries.take k ++ new⟩ =
      prev + (skipped ++ new).length := by
    rw [hnum.lastLogIndex_eq]
    simp only [List.length_append, hlen]
    change log.base + _ = _
    omega
  have hbelow : ∀ j, log.base < j → j ≤ log.base + k →
      RaftLog.entryAt ⟨log.sentinel, log.entries.take k ++ new⟩ j = log.entryAt j := by
    intro j hb hj
    rw [log.entryAt_with _ hb, log.entryAt_above hb, List.getElem?_append_left (by omega),
      List.getElem?_take_of_lt (by omega)]
  constructor
  · rfl
  · exact hnum
  · exact hreach.ge
  · intro e he hb
    rcases List.mem_append.mp he with he | he
    · have hle := ((consecutive_append.mp hc).1.index_bounds he).2
      rcases hs e he with hcov | ⟨hl, hterm⟩
      · omega
      · exact Or.inr ⟨hl, hterm, hbelow e.index hb (by omega)⟩
    · obtain ⟨m, hm⟩ := List.mem_iff_getElem?.mp he
      have hindex := hnew.index_eq hm
      left
      rw [log.entryAt_with _ hb, List.getElem?_append_right (by omega), hlen,
        show e.index - log.base - 1 - k = m by omega, hm]
  · intro j hb hj hfirst
    apply hbelow j hb
    rcases hcut with rfl | hcut
    · omega
    · have := hfirst _ hcut
      omega
  · intro i _
    exact hreach

variable {rn rn' : RaftNode D} {args : AppendEntriesArgs} {writes : List (StoreWrite D)}
  {u : Unit}

/-- A walk that ends well merges the entries into the log and changes nothing else, and no
conflict was with a committed entry. -/
theorem RaftNode.WalkOutcome.merged (h : WalkOutcome rn args es (.done rn' writes u))
    (hn : rn.log.Numbered) (hc : Consecutive prev es) (hle : prev ≤ rn.log.lastLogIndex) :
    Merged rn.log rn'.log prev es ∧ rn' = { rn with log := rn'.log } ∧
      ∀ i, Conflicts rn.log es i → rn.commitIndex < i := by
  rcases h.done_cases hn with ⟨heq, _, hs⟩ | ⟨skipped, new, k, hsp, heq, _⟩
  · rw [heq]
    refine ⟨merged_of_held hn hle hc hs, rfl, ?_⟩
    intro i hi
    obtain ⟨e, he, _, hheld⟩ := hi.not_held
    exact absurd (hs e he) hheld
  · have hlast := hn.lastLogIndex_eq
    have hcut : k = rn.log.entries.length ∨ Conflicts rn.log es (rn.log.base + k + 1) := by
      rcases hsp.place with hend | ⟨_, hlt, e, rest, rfl, hne⟩
      · exact Or.inl hend
      · have hindex := hsp.numbered.1
        rw [hindex] at hne
        exact Or.inr ⟨by omega, by omega, e, by simp [hsp.split], hindex, hne⟩
    obtain ⟨rfl, hs, hne, hk, hnew, hplace⟩ := hsp
    rw [heq]
    refine ⟨merged_of_spliced hn hk hc hs hne hnew hcut, rfl, ?_⟩
    intro i hi
    have hlt := hi.beyond hs hnew
    have hil := hi.2.1
    rcases hplace with hend | ⟨hcm, _⟩ <;> omega

/-- A walk ends in the refusal exactly when it meets a committed conflict. -/
theorem RaftNode.WalkOutcome.refused_conflict {e : Panic}
    (h : WalkOutcome rn args es ⟨writes, .error e⟩) :
    ∃ i, Conflicts rn.log es i ∧ i ≤ rn.commitIndex := by
  cases h with
  | refused skipped e rest heq hs hb hl hne hcm =>
    subst heq
    exact ⟨e.index, ⟨hb, hl, e, by simp, rfl, hne⟩, hcm⟩

end Merge

section Handler

theorem advanceFollowerCommit_eq (rn : RaftNode D) (args : AppendEntriesArgs) :
    rn.advanceFollowerCommit args = { rn with
      commitIndex := max rn.commitIndex
        (min args.leaderCommit (args.prevLogIndex + args.entries.length)) } := by
  rcases rn.advanceFollowerCommit_cases args with ⟨hle, heq⟩ | ⟨hlt, heq⟩
  · rw [heq, Nat.max_eq_left hle]
  · rw [heq, Nat.max_eq_right hlt.le]

variable {rn rn' : RaftNode D} {args : AppendEntriesArgs} {reply : AppendEntriesReply}

/-- What a rejection tells the leader: the log ends before the predecessor, or its entry there is
of another term, in a run that starts at the conflict index. -/
inductive Hint (rn : RaftNode D) (args : AppendEntriesArgs) (reply : AppendEntriesReply) :
    Prop where
  | short : rn.log.lastLogIndex < args.prevLogIndex → reply.conflictTerm = 0 →
      reply.conflictIndex = rn.log.lastLogIndex + 1 → Hint rn args reply
  | conflict : rn.log.base ≤ args.prevLogIndex → args.prevLogIndex ≤ rn.log.lastLogIndex →
      reply.conflictTerm ≠ args.prevLogTerm → reply.conflictIndex ≤ args.prevLogIndex →
      (rn.log.base < args.prevLogIndex → rn.log.base < reply.conflictIndex) →
      (∀ j, reply.conflictIndex ≤ j → j ≤ args.prevLogIndex →
        rn.log.termAt j = some reply.conflictTerm) → Hint rn args reply

theorem firstOfTerm_run {term i first : ℕ} (h : rn.firstOfTerm term i = some first)
    (hi : rn.log.termAt i = some term) :
    first ≤ i ∧ (rn.log.base < i → rn.log.base < first) ∧
      ∀ j, first ≤ j → j ≤ i → rn.log.termAt j = some term := by
  have hself : ∀ j, i ≤ j → j ≤ i → rn.log.termAt j = some term := by
    intro j hij hji
    rw [Nat.le_antisymm hji hij]
    exact hi
  induction i generalizing first with
  | zero =>
    cases h
    exact ⟨le_rfl, fun hb => hb, hself⟩
  | succ n ih =>
    rw [firstOfTerm] at h
    by_cases hb : n + 1 > rn.log.base + 1
    · rw [if_pos hb] at h
      split at h
      · cases h
      rename_i t ht
      split at h
      · rename_i hterm
        subst hterm
        obtain ⟨hle, hbase, hrun⟩ := ih h ht fun j hij hji => by
          rw [Nat.le_antisymm hji hij]
          exact ht
        refine ⟨by omega, fun _ => hbase (by omega), fun j hj hjn => ?_⟩
        rcases Nat.lt_or_eq_of_le hjn with hlt | rfl
        · exact hrun j hj (by omega)
        · exact hi
      · cases h
        exact ⟨le_rfl, fun hb => hb, hself⟩
    · rw [if_neg hb] at h
      cases h
      exact ⟨le_rfl, fun hb => hb, hself⟩

theorem consistencyCheck_hint {reply : AppendEntriesReply}
    (h : rn.consistencyCheck args = .ok (some reply)) : Hint rn args reply := by
  rw [consistencyCheck] at h
  split at h
  · rename_i hshort
    cases h
    exact .short hshort rfl rfl
  rename_i hlast
  split at h
  · rename_i hb
    split at h
    · cases h
    rename_i t ht
    split at h
    · rename_i hne
      split at h
      · cases h
      rename_i first hfirst
      cases h
      obtain ⟨hle, hbase, hrun⟩ := firstOfTerm_run hfirst ht
      exact .conflict hb (not_lt.mp hlast) hne hle hbase hrun
    · cases h
  · cases h

theorem acceptEntries_hint (hp : ¬rn.PrevMatches args) (hn : rn.log.Numbered)
    {writes : List (StoreWrite D)} (h : rn.acceptEntries args = .done rn' writes reply) :
    Hint rn args reply := by
  rcases consistencyCheck_cases hn args with ⟨hyes, _⟩ | ⟨_, reply', hcheck, _, _⟩
  · exact absurd hyes hp
  · rw [acceptEntries, hcheck] at h
    cases h
    exact consistencyCheck_hint hcheck

inductive AcceptOutcome (rn : RaftNode D) (args : AppendEntriesArgs) :
    Outcome D AppendEntriesReply → Prop where
  | rejected (reply : AppendEntriesReply) : ¬rn.PrevMatches args → reply.success = false →
      reply.term = rn.currentTerm → Hint rn args reply →
      AcceptOutcome rn args (.done rn [] reply)
  | merged (log : RaftLog) (writes : List (StoreWrite D)) (reply : AppendEntriesReply) :
      rn.PrevMatches args → reply.success = true → reply.term = rn.currentTerm →
      Merged rn.log log args.prevLogIndex args.entries →
      (∀ i, Conflicts rn.log args.entries i → rn.commitIndex < i) →
      AcceptOutcome rn args (.done { rn with
        log := log
        commitIndex := max rn.commitIndex
          (min args.leaderCommit (args.prevLogIndex + args.entries.length)) } writes reply)
  | refused (e : Panic) (i : ℕ) : rn.PrevMatches args → Conflicts rn.log args.entries i →
      i ≤ rn.commitIndex → AcceptOutcome rn args ⟨[], .error e⟩

theorem acceptEntries_outcome (hn : rn.log.Numbered)
    (hc : Consecutive args.prevLogIndex args.entries) :
    AcceptOutcome rn args (rn.acceptEntries args) := by
  rcases acceptEntries_cases hn hc with ⟨hp, reply, heq, ht, hs⟩ | ⟨hp, walk, hw, hends⟩
  · rw [heq]
    exact .rejected reply hp hs ht (acceptEntries_hint hp hn heq)
  · rcases hends with ⟨e, rfl, heq⟩ | ⟨rn', writes, rfl, heq⟩
    · obtain ⟨i, hi, hle⟩ := hw.refused_conflict
      rw [heq]
      exact .refused e i hp hi hle
    · obtain ⟨hm, hsame, hfree⟩ := hw.merged hn hc (hp.le_last hn)
      rw [heq, advanceFollowerCommit_eq]
      generalize rn'.log = log at *
      subst hsame
      exact .merged log writes _ hp rfl rfl hm hfree

/-- The request is not of an earlier term, and its predecessor lies in the snapshot or in the
log. -/
def RaftNode.Acceptable (rn : RaftNode D) (args : AppendEntriesArgs) : Prop :=
  rn.currentTerm ≤ args.term ∧ (args.prevLogIndex < rn.log.base ∨
    args.prevLogIndex ≤ rn.log.lastLogIndex ∧
      rn.log.termAt args.prevLogIndex = some args.prevLogTerm)

structure Appended (rn rn' : RaftNode D) (args : AppendEntriesArgs) : Prop where
  base : rn'.log.base = rn.log.base
  given : ∀ i, max rn.log.base args.prevLogIndex < i →
    i ≤ args.prevLogIndex + args.entries.length →
    ∃ e, args.entries[i - args.prevLogIndex - 1]? = some e ∧ rn'.log.termAt i = some e.term
  kept : ∀ j, rn.log.base < j → j ≤ rn.log.lastLogIndex →
    (∀ i, Conflicts rn.log args.entries i → j < i) → rn'.log.entryAt j = rn.log.entryAt j
  beyond : ∀ j, rn.log.base < j → j ≤ rn.log.lastLogIndex →
    args.prevLogIndex + args.entries.length < j →
    (rn'.log.entryAt j = rn.log.entryAt j ↔ ∀ i, ¬Conflicts rn.log args.entries i)
  commit : rn'.commitIndex = max rn.commitIndex
    (min args.leaderCommit (args.prevLogIndex + args.entries.length))
  commit_le : rn'.commitIndex ≤ rn'.log.lastLogIndex

theorem Merged.appended {log : RaftLog} (h : Merged rn.log log args.prevLogIndex args.entries)
    (hw : rn.Wf) (hc : Consecutive args.prevLogIndex args.entries)
    (hfree : ∀ i, Conflicts rn.log args.entries i → rn.commitIndex < i) (hlog : rn'.log = log)
    (hcommit : rn'.commitIndex = max rn.commitIndex
      (min args.leaderCommit (args.prevLogIndex + args.entries.length))) :
    Appended rn rn' args := by
  subst hlog
  have hreach := h.reach
  constructor
  · exact congrArg LogEntry.index h.sentinel
  · intro i hlt hle
    have hk : i - args.prevLogIndex - 1 < args.entries.length := by omega
    have hget := List.getElem?_eq_getElem hk
    have hindex := hc.index_eq hget
    refine ⟨_, hget, ?_⟩
    have hgiven := h.given (List.mem_of_getElem? hget) (by omega)
    rwa [hindex, show args.prevLogIndex + (i - args.prevLogIndex - 1) + 1 = i by omega] at hgiven
  · exact h.kept
  · intro j hb hl hj
    constructor
    · intro heq i hi
      have hends := h.ends i hi
      obtain ⟨e, he⟩ := hw.numbered.entryAt_isSome hb hl
      rw [h.numbered.entryAt_eq_none (by omega), he] at heq
      cases heq
    · intro hnone
      exact h.kept j hb hl fun i hi => absurd hi (hnone i)
  · exact hcommit
  · have hold : rn.commitIndex ≤ rn'.log.lastLogIndex := by
      by_cases hb : rn.commitIndex = rn.log.base
      · have hbase : rn'.log.base = rn.log.base := congrArg LogEntry.index h.sentinel
        have := h.numbered.base_le_last
        omega
      · have hlt : rn.log.base < rn.commitIndex := by
          have := hw.base_le
          omega
        by_contra hbeyond
        have hkept := h.kept _ hlt hw.commit_le hfree
        obtain ⟨e, he⟩ := hw.numbered.entryAt_isSome hlt hw.commit_le
        rw [h.numbered.entryAt_eq_none (by omega), he] at hkept
        cases hkept
    omega

theorem adoptWrites_wal (rn : RaftNode D) (term : ℕ) (disk : Disk D) :
    (disk.writeAll (rn.adoptWrites term)).wal = disk.wal := by
  rw [adoptWrites]
  split <;> rfl

/-- The handler replies unless an acceptable request conflicts with a committed entry (above a
boundary of `2^64 - 1` the hint scan may panic instead, as `base + 1` wraps there). It replies
with success to an acceptable request, with the log as it should be; any other reply leaves log,
commit index and log file alone. -/
theorem handleAppendEntries_spec (rn : RaftNode D) (args : AppendEntriesArgs) (hw : rn.Wf)
    (hrun : rn.stopped = false) (hc : Consecutive args.prevLogIndex args.entries) :
    (rn.log.base + 1 < UInt64.size →
      ((∃ rn' reply, (rn.handleAppendEntries args).result = .ok (rn', reply)) ↔
        ¬(rn.Acceptable args ∧ ∃ i ≤ rn.commitIndex, Conflicts rn.log args.entries i))) ∧
    ∀ rn' reply, (rn.handleAppendEntries args).result = .ok (rn', reply) →
      (reply.success = true ↔ rn.Acceptable args) ∧
      (reply.success = true → Appended rn rn' args) ∧
      (reply.success = false → rn'.log = rn.log ∧ rn'.commitIndex = rn.commitIndex ∧
        ∀ disk : Disk D,
          (disk.writeAll (rn.handleAppendEntries args).writes).wal = disk.wal) := by
  rw [handleAppendEntries_eq]
  by_cases hterm : args.term < rn.currentTerm
  · rw [if_pos (Or.inr hterm)]
    have hno : ¬rn.Acceptable args := fun h => absurd h.1 (by omega)
    refine ⟨fun _ => ⟨fun _ h => hno h.1, fun _ => ⟨_, _, rfl⟩⟩, ?_⟩
    rintro _ _ ⟨⟩
    exact ⟨⟨fun h => absurd h (by simp), fun h => absurd h hno⟩, fun h => absurd h (by simp),
      fun _ => ⟨rfl, rfl, fun _ => rfl⟩⟩
  rw [if_neg (by simp [hrun, hterm])]
  have haccepts : rn.Acceptable args ↔
      (rn.followerOf args.term args.leaderID).PrevMatches args := by
    simp [RaftNode.Acceptable, PrevMatches, not_lt.mp hterm]
  have hnum : (rn.followerOf args.term args.leaderID).log.Numbered := by
    rw [followerOf_log]
    exact hw.numbered
  have hout := acceptEntries_outcome hnum hc
  generalize (rn.followerOf args.term args.leaderID).acceptEntries args = o at hout
  cases hout with
  | rejected reply hp hs _ _ =>
    rw [← haccepts] at hp
    refine ⟨fun _ => ⟨fun _ h => hp h.1, fun _ => ⟨_, _, rfl⟩⟩, ?_⟩
    rintro _ _ ⟨⟩
    refine ⟨⟨fun h => ?_, fun h => absurd h hp⟩, fun h => ?_, fun _ => ⟨?_, ?_, ?_⟩⟩
    · rw [hs] at h
      cases h
    · rw [hs] at h
      cases h
    · exact followerOf_log _ _ _
    · exact followerOf_commitIndex _ _ _
    · intro disk
      simpa [Outcome.after, Outcome.done] using adoptWrites_wal rn args.term disk
  | merged log writes reply hp hs _ hm hfree =>
    simp only [followerOf_log, followerOf_commitIndex] at hm hfree
    refine ⟨fun _ => ⟨fun _ h => ?_, fun _ => ⟨_, _, rfl⟩⟩, ?_⟩
    · obtain ⟨i, hle, hi⟩ := h.2
      exact absurd (hfree i hi) (not_lt.mpr hle)
    rintro _ _ ⟨⟩
    refine ⟨⟨fun _ => haccepts.mpr hp, fun _ => hs⟩, fun _ => ?_, fun h => ?_⟩
    · apply hm.appended hw hc hfree rfl
      simp
    · rw [hs] at h
      cases h
  | refused e i hp hi hle =>
    simp only [followerOf_log, followerOf_commitIndex] at hi hle
    refine ⟨fun _ => ⟨?_, fun h => absurd ⟨haccepts.mpr hp, i, hle, hi⟩ h⟩, ?_⟩
    · rintro ⟨_, _, ⟨⟩⟩
    · rintro _ _ ⟨⟩

def followerWith (term : ℕ) (log : RaftLog) (commitIndex : ℕ) : RaftNode Unit where
  cfg := ⟨"n2", ["n1", "n3"], 0, 0, 0, 0, 0⟩
  currentTerm := term
  votedFor := None
  log := log
  commitIndex := commitIndex
  lastApplied := log.base
  nextIndex := fun _ => 0
  matchIndex := fun _ => 0
  state := .follower
  leaderID := None
  votes := 0
  pendingSnapshot := none
  initialSnapshotData := none
  started := true
  stopped := false

def compactedFollower : RaftNode Unit :=
  followerWith 2 ⟨⟨1, 2, []⟩, [⟨1, 3, [3]⟩, ⟨2, 4, [4]⟩, ⟨2, 5, [5]⟩, ⟨2, 6, [6]⟩]⟩ 3

/-- The request overlaps the snapshot, repeats an entry, conflicts with the next one and ends before
the log does. -/
def overlappingRequest : AppendEntriesArgs :=
  ⟨3, "n1", 1, 1, [⟨1, 2, [2]⟩, ⟨1, 3, [3]⟩, ⟨3, 4, [7]⟩, ⟨3, 5, [8]⟩], 9⟩

theorem handleAppendEntries_spec_overlap :
    ∃ rn' reply, (compactedFollower.handleAppendEntries overlappingRequest).result =
        .ok (rn', reply) ∧
      reply.success = true ∧ rn'.commitIndex = 5 ∧ rn'.log.termAt 5 = some 3 ∧
      rn'.log.entryAt 6 ≠ compactedFollower.log.entryAt 6 := by
  obtain ⟨hreplies, hspec⟩ := handleAppendEntries_spec compactedFollower overlappingRequest
    ⟨by decide, by decide, by decide⟩ rfl (by decide)
  have haccepts : compactedFollower.Acceptable overlappingRequest := ⟨by decide, Or.inl (by decide)⟩
  have hconflict : Conflicts compactedFollower.log overlappingRequest.entries 4 :=
    ⟨by decide, by decide, ⟨3, 4, [7]⟩, by decide, rfl, by decide⟩
  obtain ⟨rn', reply, heq⟩ := (hreplies (by decide)).mpr (by
    rintro ⟨_, i, hle, hb, _, e, he, rfl, hne⟩
    have hb : 2 < e.index := hb
    have hle : e.index ≤ 3 := hle
    simp only [overlappingRequest, List.mem_cons, List.not_mem_nil, or_false] at he
    rcases he with rfl | rfl | rfl | rfl <;> revert hb hle hne <;> decide)
  obtain ⟨hiff, hok, _⟩ := hspec rn' reply heq
  have hsuccess := hiff.mpr haccepts
  have happ := hok hsuccess
  refine ⟨rn', reply, heq, hsuccess, happ.commit, ?_, ?_⟩
  · obtain ⟨e, he, hterm⟩ := happ.given 5 (by decide) (by decide)
    cases he
    exact hterm
  · intro hsame
    exact (happ.beyond 6 (by decide) (by decide) (by decide)).mp hsame 4 hconflict

end Handler

end Raft
