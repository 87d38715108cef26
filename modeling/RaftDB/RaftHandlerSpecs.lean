import RaftDB.RaftProcess
import RaftDB.RaftLogFacts
import RaftDB.LogPrefix

/-!
# What the handlers do

One equation or case list for each handler, so that no later proof unfolds one. The index
translations of a numbered log never leave the slice, so on such a log the only panic of
the request handlers is the refusal to truncate a committed entry.
-/
namespace Raft.RaftNode

open Storage

variable {D : Type}

/-- What every index formula of a node relies on. -/
structure Wf (rn : RaftNode D) : Prop where
  numbered : rn.log.Numbered
  base_le : rn.log.base ≤ rn.commitIndex
  commit_le : rn.commitIndex ≤ rn.log.lastLogIndex

def inTerm (rn : RaftNode D) (term : ℕ) : RaftNode D :=
  if rn.currentTerm < term then
    { rn with currentTerm := term, votedFor := None, leaderID := None, state := .follower }
  else rn

def adoptWrites (rn : RaftNode D) (term : ℕ) : List (StoreWrite D) :=
  if rn.currentTerm < term then [.saveHardState ⟨term, None⟩] else []

def followerOf (rn : RaftNode D) (term : ℕ) (leaderID : NodeId) : RaftNode D :=
  { rn.inTerm term with state := .follower, leaderID := leaderID }

theorem adoptTerm_eq (rn : RaftNode D) (term : ℕ) :
    rn.adoptTerm term = (rn.inTerm term, rn.adoptWrites term) := by
  rw [adoptTerm, inTerm, adoptWrites, becomeFollowerLocked]
  by_cases h : rn.currentTerm < term
  · simp [h, persistLocked]
  · simp [h]

@[simp] theorem becomeFollowerLocked_log (rn : RaftNode D) (term : ℕ) :
    (rn.becomeFollowerLocked term).1.log = rn.log := by
  rw [becomeFollowerLocked]
  split <;> rfl

@[simp] theorem becomeFollowerLocked_commit (rn : RaftNode D) (term : ℕ) :
    (rn.becomeFollowerLocked term).1.commitIndex = rn.commitIndex := by
  rw [becomeFollowerLocked]
  split <;> rfl

@[simp] theorem inTerm_log (rn : RaftNode D) (term : ℕ) : (rn.inTerm term).log = rn.log := by
  rw [inTerm]; split <;> rfl

@[simp] theorem inTerm_commitIndex (rn : RaftNode D) (term : ℕ) :
    (rn.inTerm term).commitIndex = rn.commitIndex := by
  rw [inTerm]; split <;> rfl

theorem inTerm_currentTerm (rn : RaftNode D) (term : ℕ) :
    (rn.inTerm term).currentTerm = max rn.currentTerm term := by
  rw [inTerm]
  split
  · rename_i h
    exact (Nat.max_eq_right h.le).symm
  · rename_i h
    exact (Nat.max_eq_left (not_lt.mp h)).symm

@[simp] theorem followerOf_log (rn : RaftNode D) (term : ℕ) (leaderID : NodeId) :
    (rn.followerOf term leaderID).log = rn.log := inTerm_log rn term

@[simp] theorem followerOf_commitIndex (rn : RaftNode D) (term : ℕ) (leaderID : NodeId) :
    (rn.followerOf term leaderID).commitIndex = rn.commitIndex := inTerm_commitIndex rn term

theorem followerOf_currentTerm {rn : RaftNode D} {term : ℕ} (h : rn.currentTerm ≤ term)
    (leaderID : NodeId) : (rn.followerOf term leaderID).currentTerm = term :=
  (inTerm_currentTerm rn term).trans (Nat.max_eq_right h)

theorem followLeader_eq (rn : RaftNode D) {term : ℕ} (h : term ≤ rn.currentTerm)
    (leaderID : NodeId) :
    rn.followLeader term leaderID =
      ({ rn with state := .follower, leaderID := leaderID }, []) := by
  rw [followLeader]
  by_cases hs : rn.state = .follower
  · simp [hs]
  · simp [hs, becomeFollowerLocked, not_lt.mpr h]

theorem leader_prelude {ρ : Type} (rn : RaftNode D) (term : ℕ) (leaderID : NodeId)
    (reject : RaftNode D → ρ) (accept : RaftNode D → Outcome D ρ) :
    (let (rn, adopted) := rn.adoptTerm term
     if term < rn.currentTerm then .done rn adopted (reject rn)
     else
      let (rn, followed) := rn.followLeader term leaderID
      (accept rn).after (adopted ++ followed)) =
    if term < rn.currentTerm then .done rn [] (reject rn)
    else (accept (rn.followerOf term leaderID)).after (rn.adoptWrites term) := by
  rw [adoptTerm_eq]
  dsimp only
  rw [inTerm_currentTerm]
  by_cases h : term < rn.currentTerm
  · rw [if_pos (by omega), if_pos h, inTerm, adoptWrites, if_neg (by omega), if_neg (by omega)]
  · rw [if_neg (by omega), if_neg h, followLeader_eq _ (by rw [inTerm_currentTerm]; omega)]
    simp only [List.append_nil]
    rfl

theorem handleAppendEntries_eq (rn : RaftNode D) (args : AppendEntriesArgs) :
    rn.handleAppendEntries args =
      if rn.stopped ∨ args.term < rn.currentTerm then .done rn [] { term := rn.currentTerm }
      else ((rn.followerOf args.term args.leaderID).acceptEntries args).after
        (rn.adoptWrites args.term) := by
  rw [handleAppendEntries]
  by_cases hs : rn.stopped
  · simp [hs]
  · rw [if_neg hs]
    have := rn.leader_prelude args.term args.leaderID
      (fun rn => ({ term := rn.currentTerm } : AppendEntriesReply)) (acceptEntries · args)
    simpa only [hs, Bool.false_eq_true, false_or] using this

theorem handleInstallSnapshot_eq (rn : RaftNode D) (args : InstallSnapshotArgs D) :
    rn.handleInstallSnapshot args =
      if rn.stopped ∨ args.term < rn.currentTerm then .done rn [] { term := rn.currentTerm }
      else ((rn.followerOf args.term args.leaderID).acceptSnapshot args).after
        (rn.adoptWrites args.term) := by
  rw [handleInstallSnapshot]
  by_cases hs : rn.stopped
  · simp [hs]
  · rw [if_neg hs]
    have := rn.leader_prelude args.term args.leaderID
      (fun rn => ({ term := rn.currentTerm } : InstallSnapshotReply)) (acceptSnapshot · args)
    simpa only [hs, Bool.false_eq_true, false_or] using this

def grants (rn : RaftNode D) (args : RequestVoteArgs) : Prop :=
  rn.upToDate args = true ∧ (rn.votedFor = None ∨ rn.votedFor = args.candidateID)

instance (rn : RaftNode D) (args : RequestVoteArgs) : Decidable (rn.grants args) :=
  inferInstanceAs (Decidable (_ ∧ _))

theorem handleRequestVote_eq (rn : RaftNode D) (args : RequestVoteArgs) :
    rn.handleRequestVote args =
      if rn.stopped ∨ args.term < rn.currentTerm then .done rn [] { term := rn.currentTerm }
      else if (rn.inTerm args.term).grants args then
        .done { rn.inTerm args.term with votedFor := args.candidateID }
          (rn.adoptWrites args.term ++ [.saveHardState ⟨args.term, args.candidateID⟩])
          { term := args.term, voteGranted := true }
      else .done (rn.inTerm args.term) (rn.adoptWrites args.term) { term := args.term } := by
  rw [handleRequestVote]
  by_cases hs : rn.stopped
  · simp [hs]
  simp only [hs, Bool.false_eq_true, if_false, false_or, adoptTerm_eq, inTerm_currentTerm]
  by_cases hlt : args.term < rn.currentTerm
  · rw [if_pos (by omega), if_pos hlt, Nat.max_eq_left hlt.le, inTerm, adoptWrites,
      if_neg (by omega), if_neg (by omega)]
  · have hmax : max rn.currentTerm args.term = args.term := Nat.max_eq_right (not_lt.mp hlt)
    rw [if_neg (by omega), if_neg hlt]
    by_cases hup : (rn.inTerm args.term).upToDate args = true
    · by_cases hv : (rn.inTerm args.term).votedFor = None ∨
          (rn.inTerm args.term).votedFor = args.candidateID
      · simp [hup, hv, grants, persistLocked, hmax]
      · simp [hup, hv, grants, hmax]
    · simp [hup, grants, hmax]

/-- The log has an entry of that index and term, or the boundary covers the index. -/
def Held (log : RaftLog) (e : LogEntry) : Prop :=
  e.index ≤ log.base ∨ (e.index ≤ log.lastLogIndex ∧ log.termAt e.index = some e.term)

theorem reach_of_held {log : RaftLog} (hn : log.Numbered) {n : ℕ} (hle : n ≤ log.lastLogIndex)
    {es : List LogEntry} (hc : Consecutive n es) (hs : ∀ e ∈ es, Held log e) :
    n + es.length ≤ log.lastLogIndex := by
  cases hlast : es.getLast? with
  | none =>
    rw [List.getLast?_eq_none_iff] at hlast
    simpa [hlast] using hle
  | some e =>
    rw [← hc.last_index hlast]
    have hbl := hn.base_le_last
    rcases hs e (List.mem_of_getLast? hlast) with h | h <;> omega

def spliced (rn : RaftNode D) (e : LogEntry) (rest : List LogEntry) : RaftNode D :=
  { rn with
    log := ⟨rn.log.sentinel, rn.log.entries.take (e.index - rn.log.base - 1) ++ e :: rest⟩ }

inductive WalkOutcome (rn : RaftNode D) (args : AppendEntriesArgs) (es : List LogEntry) :
    Outcome D Unit → Prop where
  | held : (∀ e ∈ es, Held rn.log e) → WalkOutcome rn args es (.done rn [] ())
  | extended (skipped new : List LogEntry) : es = skipped ++ new → new ≠ [] →
      (∀ e ∈ skipped, Held rn.log e) → Consecutive rn.log.lastLogIndex new →
      WalkOutcome rn args es (.done (rn.appendLogLocked new).1 (appendEntries new) ())
  | cut (skipped : List LogEntry) (e : LogEntry) (rest : List LogEntry) :
      es = skipped ++ e :: rest → (∀ x ∈ skipped, Held rn.log x) →
      rn.log.base < e.index → e.index ≤ rn.log.lastLogIndex →
      rn.log.termAt e.index ≠ some e.term → rn.commitIndex < e.index →
      Consecutive (e.index - 1) (e :: rest) →
      WalkOutcome rn args es
        (.done (rn.spliced e rest) (truncateSuffix e.index ++ appendEntries (e :: rest)) ())
  | refused (skipped : List LogEntry) (e : LogEntry) (rest : List LogEntry) :
      es = skipped ++ e :: rest → (∀ x ∈ skipped, Held rn.log x) →
      rn.log.base < e.index → e.index ≤ rn.log.lastLogIndex →
      rn.log.termAt e.index ≠ some e.term → e.index ≤ rn.commitIndex →
      WalkOutcome rn args es
        ⟨[], .error (.truncateCommitted rn.id args.leaderID args.term e.index rn.commitIndex)⟩

theorem truncateLogLocked_eq {rn : RaftNode D} (hn : rn.log.Numbered) {start : ℕ}
    (hb : rn.log.base < start) (hl : start ≤ rn.log.lastLogIndex) :
    rn.truncateLogLocked start =
      .done { rn with log := ⟨rn.log.sentinel, rn.log.entries.take (start - rn.log.base - 1)⟩ }
        (truncateSuffix start) () := by
  rw [hn.lastLogIndex_eq] at hl
  have hlen : rn.log.slots.length = rn.log.entries.length + 1 := rfl
  rw [truncateLogLocked, uint64Sub_of_le hb.le]
  exact if_pos ⟨by omega, by omega⟩

theorem WalkOutcome.cons {rn : RaftNode D} {args : AppendEntriesArgs} {e : LogEntry}
    {es : List LogEntry} {o : Outcome D Unit} (h : WalkOutcome rn args es o)
    (he : Held rn.log e) : WalkOutcome rn args (e :: es) o := by
  have hcons : ∀ {skipped : List LogEntry}, (∀ x ∈ skipped, Held rn.log x) →
      ∀ x ∈ e :: skipped, Held rn.log x := by
    intro skipped hs x hx
    rcases List.mem_cons.mp hx with rfl | hx
    · exact he
    · exact hs x hx
  cases h with
  | held hs => exact .held (hcons hs)
  | extended skipped new heq hne hs hc =>
    exact .extended (e :: skipped) new (by rw [heq]; rfl) hne (hcons hs) hc
  | cut skipped x rest heq hs hb hl ht hcm hc =>
    exact .cut (e :: skipped) x rest (by rw [heq]; rfl) (hcons hs) hb hl ht hcm hc
  | refused skipped x rest heq hs hb hl ht hcm =>
    exact .refused (e :: skipped) x rest (by rw [heq]; rfl) (hcons hs) hb hl ht hcm

theorem appendWalk_outcome {rn : RaftNode D} (hn : rn.log.Numbered) (args : AppendEntriesArgs)
    {n : ℕ} {es : List LogEntry} (hc : Consecutive n es) (hle : n ≤ rn.log.lastLogIndex) :
    WalkOutcome rn args es (rn.appendWalk args es) := by
  induction es generalizing n with
  | nil => exact .held (by simp)
  | cons e rest ih =>
    obtain ⟨he, hrest⟩ := hc
    rw [appendWalk]
    by_cases hb : e.index ≤ rn.log.base
    · rw [if_pos hb]
      have := hn.base_le_last
      exact (ih hrest (by omega)).cons (Or.inl hb)
    rw [if_neg hb]
    have hself : Consecutive (e.index - 1) (e :: rest) := ⟨by omega, by
      rw [show e.index - 1 + 1 = n + 1 by omega]
      exact hrest⟩
    by_cases hl : e.index ≤ rn.log.lastLogIndex
    · rw [if_pos hl]
      obtain ⟨t, ht⟩ := hn.termAt_isSome (by omega) hl
      simp only [ht]
      by_cases hte : t = e.term
      · rw [if_pos hte]
        exact (ih hrest (by omega)).cons (Or.inr ⟨hl, by rw [ht, hte]⟩)
      rw [if_neg hte]
      have hne : rn.log.termAt e.index ≠ some e.term := by
        rw [ht]
        exact fun h => hte (Option.some.inj h)
      by_cases hcm : e.index ≤ rn.commitIndex
      · rw [if_pos hcm]
        exact .refused [] e rest rfl (by simp) (by omega) hl hne hcm
      · rw [if_neg hcm, truncateLogLocked_eq hn (by omega) hl]
        exact .cut [] e rest rfl (by simp) (by omega) hl hne (by omega) hself
    · rw [if_neg hl]
      refine .extended [] (e :: rest) rfl (by simp) (by simp) ?_
      rw [show rn.log.lastLogIndex = e.index - 1 by omega]
      exact hself

/-- A walk that changed the log put the rest of the request behind the first `k` entries: at the
end of the log, or at a conflict with an entry that is not committed. -/
structure Splice (rn : RaftNode D) (es skipped new : List LogEntry) (k : ℕ) : Prop where
  split : es = skipped ++ new
  held : ∀ e ∈ skipped, Held rn.log e
  nonempty : new ≠ []
  within : k ≤ rn.log.entries.length
  numbered : Consecutive (rn.log.base + k) new
  place : k = rn.log.entries.length ∨ rn.commitIndex ≤ rn.log.base + k ∧
    k < rn.log.entries.length ∧ ∃ e rest, new = e :: rest ∧ rn.log.termAt e.index ≠ some e.term

theorem Splice.start {rn : RaftNode D} {es skipped new : List LogEntry} {k prev : ℕ}
    (h : Splice rn es skipped new k) (hc : Consecutive prev es) :
    prev + skipped.length = rn.log.base + k := by
  obtain ⟨e, rest, hnew⟩ := List.exists_cons_of_ne_nil h.nonempty
  have hrest := h.numbered
  rw [h.split, hnew] at hc
  rw [hnew] at hrest
  have h₁ := (consecutive_append.mp hc).2.1
  have h₂ := hrest.1
  omega

def spliceWrites (log : RaftLog) (k : ℕ) (new : List LogEntry) : List (StoreWrite D) :=
  if k = log.entries.length then appendEntries new
  else truncateSuffix (log.base + k + 1) ++ appendEntries new

theorem WalkOutcome.done_cases {rn rn' : RaftNode D} {args : AppendEntriesArgs}
    {es : List LogEntry} {writes : List (StoreWrite D)} {u : Unit} (hn : rn.log.Numbered)
    (h : WalkOutcome rn args es (.done rn' writes u)) :
    (rn' = rn ∧ writes = [] ∧ ∀ e ∈ es, Held rn.log e) ∨
      ∃ skipped new k, Splice rn es skipped new k ∧
        rn' = { rn with log := ⟨rn.log.sentinel, rn.log.entries.take k ++ new⟩ } ∧
        writes = spliceWrites rn.log k new := by
  have hlast := hn.lastLogIndex_eq
  generalize ho : Outcome.done rn' writes u = o at h
  cases h with
  | held hs =>
    cases ho
    exact Or.inl ⟨rfl, rfl, hs⟩
  | extended skipped new heq hne hs hnew =>
    cases ho
    rw [hlast] at hnew
    refine Or.inr ⟨skipped, new, _, ⟨heq, hs, hne, le_rfl, hnew, Or.inl rfl⟩, ?_,
      (if_pos rfl).symm⟩
    rw [List.take_length]
    rfl
  | cut skipped e rest heq hs hb hl hne hcm hnew =>
    cases ho
    have hk : rn.log.base + (e.index - rn.log.base - 1) = e.index - 1 := by omega
    refine Or.inr ⟨skipped, e :: rest, _,
      ⟨heq, hs, List.cons_ne_nil e rest, by omega, ?_, ?_⟩, rfl, ?_⟩
    · rwa [hk]
    · exact Or.inr ⟨by omega, by omega, e, rest, rfl, hne⟩
    · rw [spliceWrites, if_neg (by omega), hk, Nat.sub_add_cancel (by omega)]
  | refused => cases ho

theorem firstOfTerm_isSome {rn : RaftNode D} (hn : rn.log.Numbered) (term : ℕ) {i : ℕ}
    (hi : i ≤ rn.log.lastLogIndex) : ∃ first, rn.firstOfTerm term i = some first := by
  induction i with
  | zero => exact ⟨0, rfl⟩
  | succ n ih =>
    rw [firstOfTerm]
    by_cases hb : n + 1 > rn.log.base + 1
    · obtain ⟨t, ht⟩ := hn.termAt_isSome (i := n) (by omega) (by omega)
      rw [if_pos hb, ht]
      dsimp only
      split
      · exact ih (by omega)
      · exact ⟨_, rfl⟩
    · exact ⟨_, if_neg hb⟩

def PrevMatches (rn : RaftNode D) (args : AppendEntriesArgs) : Prop :=
  args.prevLogIndex < rn.log.base ∨ (args.prevLogIndex ≤ rn.log.lastLogIndex ∧
    rn.log.termAt args.prevLogIndex = some args.prevLogTerm)

theorem PrevMatches.le_last {rn : RaftNode D} {args : AppendEntriesArgs}
    (h : rn.PrevMatches args) (hn : rn.log.Numbered) :
    args.prevLogIndex ≤ rn.log.lastLogIndex := by
  have := hn.base_le_last
  rcases h with h | h <;> omega

theorem advanceFollowerCommit_cases (rn : RaftNode D) (args : AppendEntriesArgs) :
    (min args.leaderCommit (args.prevLogIndex + args.entries.length) ≤ rn.commitIndex ∧
      rn.advanceFollowerCommit args = rn) ∨
    (rn.commitIndex < min args.leaderCommit (args.prevLogIndex + args.entries.length) ∧
      rn.advanceFollowerCommit args = { rn with
        commitIndex := min args.leaderCommit (args.prevLogIndex + args.entries.length) }) := by
  rw [advanceFollowerCommit]
  dsimp only
  split
  · split
    · rename_i hlt
      exact Or.inr ⟨hlt, rfl⟩
    · rename_i hle
      exact Or.inl ⟨not_lt.mp hle, rfl⟩
  · rename_i hle
    exact Or.inl ⟨(Nat.min_le_left _ _).trans (not_lt.mp hle), rfl⟩

theorem consistencyCheck_cases {rn : RaftNode D} (hn : rn.log.Numbered)
    (args : AppendEntriesArgs) :
    (rn.PrevMatches args ∧ rn.consistencyCheck args = .ok none) ∨
    (¬ rn.PrevMatches args ∧ ∃ reply, rn.consistencyCheck args = .ok (some reply) ∧
      reply.term = rn.currentTerm ∧ reply.success = false) := by
  have hbl := hn.base_le_last
  rw [consistencyCheck, PrevMatches]
  by_cases hlast : args.prevLogIndex > rn.log.lastLogIndex
  · rw [if_pos hlast]
    exact Or.inr ⟨by omega, _, rfl, rfl, rfl⟩
  rw [if_neg hlast]
  by_cases hb : args.prevLogIndex ≥ rn.log.base
  · obtain ⟨t, ht⟩ := hn.termAt_isSome hb (not_lt.mp hlast)
    rw [if_pos hb, ht]
    by_cases hte : t = args.prevLogTerm
    · left
      exact ⟨Or.inr ⟨not_lt.mp hlast, by rw [hte]⟩, by simp [hte]⟩
    · obtain ⟨first, hf⟩ := firstOfTerm_isSome hn t (not_lt.mp hlast)
      right
      refine ⟨?_, { term := rn.currentTerm, conflictTerm := t, conflictIndex := first }, ?_,
        rfl, rfl⟩
      · rintro (hlt | ⟨_, h⟩)
        · omega
        · exact hte (Option.some.inj h)
      · simp [hte, hf]
  · rw [if_neg hb]
    exact Or.inl ⟨Or.inl (by omega), rfl⟩

/-- How the part of the append handler behind the term checks can end. -/
theorem acceptEntries_cases {rn : RaftNode D} (hn : rn.log.Numbered) {args : AppendEntriesArgs}
    (hc : Consecutive args.prevLogIndex args.entries) :
    (¬ rn.PrevMatches args ∧ ∃ reply, rn.acceptEntries args = .done rn [] reply ∧
      reply.term = rn.currentTerm ∧ reply.success = false) ∨
    (rn.PrevMatches args ∧ ∃ walk, WalkOutcome rn args args.entries walk ∧
      ((∃ p, walk = ⟨[], .error p⟩ ∧ rn.acceptEntries args = ⟨[], .error p⟩) ∨
       (∃ rn' writes, walk = .done rn' writes () ∧
        rn.acceptEntries args = .done (rn'.advanceFollowerCommit args) writes
          { term := rn'.currentTerm, success := true }))) := by
  rcases consistencyCheck_cases hn args with ⟨hp, hok⟩ | ⟨hp, reply, hrej, ht, hs⟩
  · right
    have hw := appendWalk_outcome hn args hc (hp.le_last hn)
    refine ⟨hp, _, hw, ?_⟩
    rw [acceptEntries, hok]
    dsimp only
    cases hw' : rn.appendWalk args args.entries with
    | mk writes result =>
      rw [hw'] at hw
      cases hw with
      | held _ => exact Or.inr ⟨_, _, rfl, rfl⟩
      | extended _ _ _ _ _ _ => exact Or.inr ⟨_, _, rfl, rfl⟩
      | cut _ _ _ _ _ _ _ _ _ _ => exact Or.inr ⟨_, _, rfl, rfl⟩
      | refused _ _ _ _ _ _ _ _ _ => exact Or.inl ⟨_, rfl, rfl⟩
  · exact Or.inl ⟨hp, reply, by rw [acceptEntries, hrej], ht, hs⟩

def suffixBeyond (rn : RaftNode D) (index term : ℕ) : List LogEntry :=
  if rn.log.base ≤ index ∧ index ≤ rn.log.lastLogIndex ∧ rn.log.termAt index = some term
  then rn.log.entries.drop (index - rn.log.base) else []

theorem retainedSuffix_eq {rn : RaftNode D} (hn : rn.log.Numbered) (index term : ℕ) :
    rn.retainedSuffix index term = some (rn.suffixBeyond index term) := by
  rw [retainedSuffix, suffixBeyond]
  by_cases hr : index ≤ rn.log.lastLogIndex ∧ index ≥ rn.log.base
  · obtain ⟨t, ht⟩ := hn.termAt_isSome hr.2 hr.1
    rw [if_pos hr, ht]
    by_cases hte : t = term
    · subst hte
      rw [if_pos ⟨hr.2, hr.1, rfl⟩]
      simp only [if_true]
      rw [hn.entriesFrom_eq (by omega) (by omega)]
      congr 2
      omega
    · simp [hte]
  · rw [if_neg hr, if_neg (by tauto)]

def installedSnapshot (rn : RaftNode D) (snap : Snapshot D) : RaftNode D :=
  { rn with
    log := ⟨⟨snap.lastIncludedTerm, snap.lastIncludedIndex, []⟩,
      rn.suffixBeyond snap.lastIncludedIndex snap.lastIncludedTerm⟩
    commitIndex := snap.lastIncludedIndex
    pendingSnapshot := some snap }

theorem acceptSnapshot_eq {rn : RaftNode D} (hn : rn.log.Numbered)
    (args : InstallSnapshotArgs D) :
    rn.acceptSnapshot args =
      if args.lastIncludedIndex ≤ rn.commitIndex then .done rn [] { term := rn.currentTerm }
      else .done (rn.installedSnapshot args.snapshot)
        [.saveSnapshot args.snapshot,
          .compact (rn.suffixBeyond args.lastIncludedIndex args.lastIncludedTerm)]
        { term := rn.currentTerm } := by
  rw [acceptSnapshot, retainedSuffix_eq hn]
  rfl

theorem suffixBeyond_consecutive {rn : RaftNode D} (hn : rn.log.Numbered) (index term : ℕ) :
    Consecutive index (rn.suffixBeyond index term) := by
  rw [suffixBeyond]
  split
  · rename_i h
    have hl := h.2.1
    rw [hn.lastLogIndex_eq] at hl
    have := hn.drop (k := index - rn.log.base) (by omega)
    rwa [Nat.add_sub_cancel' h.1] at this
  · trivial

/-- The scan moves the commit index only to an index of the current term that a quorum
holds, and it never leaves the slice. -/
theorem commitScan_cases {rn : RaftNode D} (hn : rn.log.Numbered)
    (hb : rn.log.base ≤ rn.commitIndex) {n : ℕ} (hl : n ≤ rn.log.lastLogIndex) :
    ∃ m, rn.commitScan n = .ok m ∧ (m = rn.commitIndex ∨ (rn.commitIndex < m ∧ m ≤ n ∧
      rn.log.termAt m = some rn.currentTerm ∧ rn.quorum ≤ rn.replicatedOn m)) := by
  induction n with
  | zero => exact ⟨_, rfl, Or.inl rfl⟩
  | succ n ih =>
    rw [commitScan]
    by_cases hc : n + 1 ≤ rn.commitIndex
    · exact ⟨_, if_pos hc, Or.inl rfl⟩
    rw [if_neg hc]
    obtain ⟨t, ht⟩ := hn.termAt_isSome (i := n + 1) (by omega) hl
    simp only [ht]
    by_cases hte : t = rn.currentTerm
    · by_cases hq : rn.replicatedOn (n + 1) ≥ rn.quorum
      · exact ⟨n + 1, by simp [hte, hq], Or.inr ⟨by omega, le_rfl, by rw [ht, hte], hq⟩⟩
      · obtain ⟨m, hm, hcases⟩ := ih (by omega)
        refine ⟨m, by simp [hte, hq, hm], hcases.imp_right ?_⟩
        rintro ⟨h1, h2, h3⟩
        exact ⟨h1, by omega, h3⟩
    · exact ⟨_, by simp [hte], Or.inl rfl⟩

theorem advanceCommitIndexLocked_cases {rn : RaftNode D} (hn : rn.log.Numbered)
    (hb : rn.log.base ≤ rn.commitIndex) :
    ∃ m, rn.advanceCommitIndexLocked = .ok { rn with commitIndex := m } ∧
      (m = rn.commitIndex ∨ (rn.state = .leader ∧ rn.commitIndex < m ∧
        m ≤ rn.log.lastLogIndex ∧ rn.log.termAt m = some rn.currentTerm ∧
        rn.quorum ≤ rn.replicatedOn m)) := by
  rw [advanceCommitIndexLocked]
  by_cases hs : rn.state = .leader
  · obtain ⟨m, hm, hcases⟩ := commitScan_cases hn hb le_rfl
    refine ⟨m, by simp [hs, hm], hcases.imp_right ?_⟩
    rintro ⟨h1, h2, h3, h4⟩
    exact ⟨hs, h1, h2, h3, h4⟩
  · exact ⟨rn.commitIndex, by simp [hs], Or.inl rfl⟩

section Replies

/-- The leader of the given term takes in a reply of the given term. -/
structure Takes (rn : RaftNode D) (term reply : ℕ) : Prop where
  running : rn.stopped = false
  leads : rn.state = .leader
  same : rn.currentTerm = term
  current : reply ≤ rn.currentTerm

def caughtUpTo (rn : RaftNode D) (peer : NodeId) (index : ℕ) : RaftNode D :=
  { rn with
    matchIndex := Function.update rn.matchIndex peer index
    nextIndex := Function.update rn.nextIndex peer (index + 1) }

def deposed (rn : RaftNode D) (term : ℕ) : Outcome D Unit :=
  .done (rn.becomeFollowerLocked term).1 (rn.becomeFollowerLocked term).2 ()

inductive VoteReplyOutcome (rn : RaftNode D) (term : ℕ) (reply : RequestVoteReply) :
    Outcome D Unit → Prop where
  | ignored : VoteReplyOutcome rn term reply (.done rn [] ())
  | deposed : rn.currentTerm < reply.term →
      VoteReplyOutcome rn term reply (rn.deposed reply.term)
  | counted : rn.state = .candidate → rn.currentTerm = term → reply.voteGranted = true →
      VoteReplyOutcome rn term reply (.done { rn with votes := rn.votes + 1 } [] ())
  | won : rn.state = .candidate → rn.currentTerm = term → reply.voteGranted = true →
      rn.votes + 1 = rn.quorum →
      VoteReplyOutcome rn term reply
        (.done (becomeLeaderLocked { rn with votes := rn.votes + 1 }) [] ())

theorem handleRequestVoteReply_cases (rn : RaftNode D) (term : ℕ) (reply : RequestVoteReply) :
    VoteReplyOutcome rn term reply (rn.handleRequestVoteReply term reply) := by
  rw [handleRequestVoteReply]
  split
  · exact .ignored
  split
  · rename_i hlt
    exact .deposed hlt
  split
  · exact .ignored
  rename_i hcand
  push Not at hcand
  split
  · rename_i hgranted
    dsimp only
    split
    · rename_i hquorum
      exact .won hcand.1 hcand.2 hgranted hquorum
    · exact .counted hcand.1 hcand.2 hgranted
  · exact .ignored

inductive AppendReplyOutcome (rn : RaftNode D) (peer : NodeId) (term : ℕ)
    (args : AppendEntriesArgs) (reply : AppendEntriesReply) : Outcome D Unit → Prop where
  | ignored : AppendReplyOutcome rn peer term args reply (.done rn [] ())
  | deposed : rn.currentTerm < reply.term →
      AppendReplyOutcome rn peer term args reply (rn.deposed reply.term)
  | confirmed {rn' : RaftNode D} : rn.Takes term reply.term → reply.success = true →
      rn.matchIndex peer < args.prevLogIndex + args.entries.length →
      (rn.caughtUpTo peer (args.prevLogIndex + args.entries.length)).advanceCommitIndexLocked =
        .ok rn' →
      AppendReplyOutcome rn peer term args reply (.done rn' [] ())
  | panicked {e : Panic} :
      (rn.caughtUpTo peer (args.prevLogIndex + args.entries.length)).advanceCommitIndexLocked =
        .error e →
      AppendReplyOutcome rn peer term args reply ⟨[], .error e⟩
  | rejected : rn.Takes term reply.term → reply.success = false →
      AppendReplyOutcome rn peer term args reply (.done { rn with
        nextIndex := Function.update rn.nextIndex peer
          (nextIndexAfterRejection rn.log args.prevLogIndex reply) } [] ())

theorem handleAppendEntriesReply_cases (rn : RaftNode D) (peer : NodeId) (term : ℕ)
    (args : AppendEntriesArgs) (reply : AppendEntriesReply) :
    AppendReplyOutcome rn peer term args reply
      (rn.handleAppendEntriesReply peer term args reply) := by
  rw [handleAppendEntriesReply]
  split
  · exact .ignored
  rename_i hrun
  split
  · rename_i hlt
    exact .deposed hlt
  rename_i hcur
  split
  · exact .ignored
  rename_i hlead
  push Not at hlead
  have htakes : rn.Takes term reply.term :=
    ⟨by simpa using hrun, hlead.1, hlead.2, not_lt.mp hcur⟩
  split
  · rename_i hok
    dsimp only
    split
    · rename_i hgt
      split
      · rename_i hadv
        exact .panicked hadv
      · rename_i hadv
        exact .confirmed htakes hok hgt hadv
    · exact .ignored
  · rename_i hno
    dsimp only
    split
    · exact .rejected htakes (by simpa using hno)
    · exact .ignored

theorem handleAppendEntriesReply_rejected {rn : RaftNode D} {peer : NodeId} {term : ℕ}
    {args : AppendEntriesArgs} {reply : AppendEntriesReply} (h : rn.Takes term reply.term)
    (hno : reply.success = false) :
    rn.handleAppendEntriesReply peer term args reply = .done { rn with
      nextIndex := Function.update rn.nextIndex peer (min (rn.nextIndex peer)
        (nextIndexAfterRejection rn.log args.prevLogIndex reply)) } [] () := by
  obtain ⟨hrun, hlead, hsame, hcur⟩ := h
  rw [handleAppendEntriesReply, if_neg (by simp [hrun]), if_neg (by omega),
    if_neg (by simp [hlead, hsame]), if_neg (by simp [hno])]
  dsimp only
  split
  · rename_i hlt
    rw [Nat.min_eq_right hlt.le]
  · rename_i hge
    rw [Nat.min_eq_left (not_lt.mp hge), Function.update_eq_self]

theorem handleAppendEntriesReply_stale {rn : RaftNode D} {peer : NodeId} {term : ℕ}
    {args : AppendEntriesArgs} {reply : AppendEntriesReply} (h : rn.currentTerm ≠ term)
    (hcur : reply.term ≤ rn.currentTerm) :
    rn.handleAppendEntriesReply peer term args reply = .done rn [] () := by
  rw [handleAppendEntriesReply, if_neg (not_lt.mpr hcur), if_pos (Or.inr h), ite_self]

theorem handleAppendEntriesReply_confirmed {rn : RaftNode D} {peer : NodeId} {term : ℕ}
    {args : AppendEntriesArgs} {reply : AppendEntriesReply} (h : rn.Takes term reply.term)
    (hok : reply.success = true) :
    rn.handleAppendEntriesReply peer term args reply =
      if rn.matchIndex peer < args.prevLogIndex + args.entries.length then
        match (rn.caughtUpTo peer
            (args.prevLogIndex + args.entries.length)).advanceCommitIndexLocked with
        | .error p => ⟨[], .error p⟩
        | .ok rn => .done rn [] ()
      else .done rn [] () := by
  obtain ⟨hrun, hlead, hsame, hcur⟩ := h
  rw [handleAppendEntriesReply, if_neg (by simp [hrun]), if_neg (by omega),
    if_neg (by simp [hlead, hsame]), if_pos hok]
  rfl

inductive SnapshotReplyOutcome (rn : RaftNode D) (peer : NodeId) (term : ℕ)
    (args : InstallSnapshotArgs D) (reply : InstallSnapshotReply) : Outcome D Unit → Prop where
  | ignored : SnapshotReplyOutcome rn peer term args reply (.done rn [] ())
  | deposed : rn.currentTerm < reply.term →
      SnapshotReplyOutcome rn peer term args reply (rn.deposed reply.term)
  | caughtUp : rn.Takes term reply.term → rn.matchIndex peer < args.lastIncludedIndex →
      SnapshotReplyOutcome rn peer term args reply
        (.done (rn.caughtUpTo peer args.lastIncludedIndex) [] ())

theorem handleInstallSnapshotReply_cases (rn : RaftNode D) (peer : NodeId) (term : ℕ)
    (args : InstallSnapshotArgs D) (reply : InstallSnapshotReply) :
    SnapshotReplyOutcome rn peer term args reply
      (rn.handleInstallSnapshotReply peer term args reply) := by
  rw [handleInstallSnapshotReply]
  split
  · exact .ignored
  rename_i hrun
  split
  · rename_i hlt
    exact .deposed hlt
  rename_i hcur
  split
  · exact .ignored
  rename_i hlead
  push Not at hlead
  split
  · rename_i hgt
    exact .caughtUp ⟨by simpa using hrun, hlead.1, hlead.2, not_lt.mp hcur⟩ hgt
  · exact .ignored

end Replies

section Rounds

variable {rn : RaftNode D} {term : ℕ} {peer target : NodeId} {args : AppendEntriesArgs}
  {msgs : List Outbound} {m : Outbound}

theorem outboundTo_append (h : rn.outboundTo term peer = some (.append target args)) :
    target = peer ∧ args.term = term ∧ args.leaderID = rn.id ∧
      args.prevLogIndex + 1 = rn.nextIndex peer ∧ args.leaderCommit = rn.commitIndex := by
  rw [outboundTo] at h
  dsimp only at h
  split at h
  · cases h
  rename_i hgt
  split at h
  · cases h
    refine ⟨rfl, rfl, rfl, ?_, rfl⟩
    dsimp only
    omega
  · cases h

theorem outboundTo_snapshot (h : rn.outboundTo term peer = some (.snapshot target)) :
    target = peer := by
  rw [outboundTo] at h
  dsimp only at h
  split at h
  · cases h
    rfl
  · split at h <;> cases h

theorem outboundTo_of_next (rn : RaftNode D) (term : ℕ) (peer : NodeId) (hn : rn.log.Numbered)
    (hb : rn.log.base < rn.nextIndex peer)
    (hl : rn.nextIndex peer ≤ rn.log.lastLogIndex + 1) :
    ∃ prevTerm, rn.log.termAt (rn.nextIndex peer - 1) = some prevTerm ∧
      rn.outboundTo term peer = some (.append peer ⟨term, rn.id, rn.nextIndex peer - 1, prevTerm,
        rn.log.entries.drop (rn.nextIndex peer - rn.log.base - 1), rn.commitIndex⟩) := by
  obtain ⟨prevTerm, hterm⟩ := hn.termAt_isSome (i := rn.nextIndex peer - 1) (by omega) (by omega)
  refine ⟨prevTerm, hterm, ?_⟩
  rw [outboundTo]
  dsimp only
  rw [if_neg (not_le.mpr hb), hterm, hn.entriesFrom_eq hb hl]

/-- A round with messages is a leader's, and each message goes to a peer. -/
theorem replicationRound_mem (h : rn.replicationRound term = .ok msgs) (hm : m ∈ msgs) :
    rn.state = .leader ∧ rn.currentTerm = term ∧
      ∃ peer ∈ rn.peers, rn.outboundTo term peer = some m := by
  rw [replicationRound] at h
  split at h
  · cases h
    cases hm
  rename_i hlead
  push Not at hlead
  split at h
  · cases h
  rename_i hmap
  cases h
  exact ⟨hlead.1, hlead.2, LogPrefix.exists_of_mapM hmap hm⟩

end Rounds

end Raft.RaftNode
