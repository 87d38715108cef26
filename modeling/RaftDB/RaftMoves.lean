import RaftDB.RaftHandlerSpecs
import RaftDB.StorageRecovery

/-!
# Moves of a node

Every locked section of a node, apart from the applier's, is a sequence of a few moves,
each with its durable writes. An invariant of the node is one lemma per move; the section
lemmas say which moves a handler makes, whether it returns or panics.
-/
namespace Raft

open Storage RaftNode

variable {D ρ : Type} {I : Snapshot D → Prop}

/-- The moves of a section that installs only snapshots admitted by `I`. -/
inductive Move (I : Snapshot D → Prop) : RaftNode D → List (StoreWrite D) → RaftNode D → Prop where
  | adopt (rn : RaftNode D) (term : ℕ) : rn.currentTerm < term →
      Move I rn [.saveHardState ⟨term, None⟩] (rn.inTerm term)
  | vote (rn : RaftNode D) (c : NodeId) : rn.votedFor = None ∨ rn.votedFor = c →
      Move I rn [.saveHardState ⟨rn.currentTerm, c⟩] { rn with votedFor := c }
  | stand (rn : RaftNode D) (term : ℕ) :
      Move I rn [.saveHardState ⟨term, rn.id⟩]
        { rn with
          state := .candidate
          currentTerm := term
          votedFor := rn.id
          leaderID := None
          votes := 1 }
  | append (rn : RaftNode D) (new : List LogEntry) : Consecutive rn.log.lastLogIndex new →
      Move I rn (appendEntries new) (rn.appendLogLocked new).1
  | cut (rn : RaftNode D) (start : ℕ) : rn.log.base < start → rn.commitIndex < start →
      start ≤ rn.log.lastLogIndex →
      Move I rn (truncateSuffix start)
        { rn with log := ⟨rn.log.sentinel, rn.log.entries.take (start - rn.log.base - 1)⟩ }
  | commit (rn : RaftNode D) (n : ℕ) : rn.commitIndex ≤ n → n ≤ rn.log.lastLogIndex →
      Move I rn [] { rn with commitIndex := n }
  | install (rn : RaftNode D) (snap : Snapshot D) : I snap →
      rn.commitIndex < snap.lastIncludedIndex →
      Move I rn [.saveSnapshot snap,
          .compact (rn.suffixBeyond snap.lastIncludedIndex snap.lastIncludedTerm)]
        (rn.installedSnapshot snap)
  | volatile (rn : RaftNode D) (state : State) (leaderID : NodeId) (votes : ℕ)
      (nextIndex matchIndex : NodeId → ℕ) :
      Move I rn []
        { rn with
          state := state
          leaderID := leaderID
          votes := votes
          nextIndex := nextIndex
          matchIndex := matchIndex }

inductive Moves (I : Snapshot D → Prop) (rn : RaftNode D) :
    List (StoreWrite D) → RaftNode D → Prop where
  | refl : Moves I rn [] rn
  | tail {ws ws' : List (StoreWrite D)} {rn' rn'' : RaftNode D} : Moves I rn ws rn' →
      Move I rn' ws' rn'' → Moves I rn (ws ++ ws') rn''

theorem Moves.single {rn rn' : RaftNode D} {ws : List (StoreWrite D)} (h : Move I rn ws rn') :
    Moves I rn ws rn' := by
  have := Moves.refl.tail h
  rwa [List.nil_append] at this

theorem Moves.trans {rn rn' rn'' : RaftNode D} {ws ws' : List (StoreWrite D)}
    (h : Moves I rn ws rn') (h' : Moves I rn' ws' rn'') : Moves I rn (ws ++ ws') rn'' := by
  induction h' with
  | refl => rwa [List.append_nil]
  | tail _ hm ih =>
    rw [← List.append_assoc]
    exact ih.tail hm

theorem Moves.mono {J : Snapshot D → Prop} (hij : ∀ {snap}, I snap → J snap)
    {rn rn' : RaftNode D} {ws : List (StoreWrite D)} (h : Moves I rn ws rn') : Moves J rn ws rn' := by
  induction h with
  | refl => exact .refl
  | tail _ hm ih =>
    refine ih.tail ?_
    cases hm with
    | install snap hi hlt => exact .install _ snap (hij hi) hlt
    | adopt term hlt => exact .adopt _ term hlt
    | vote c hv => exact .vote _ c hv
    | stand => exact .stand _ _
    | append new hnew => exact .append _ new hnew
    | cut start hb hc hl => exact .cut _ start hb hc hl
    | commit n hle hl => exact .commit _ n hle hl
    | volatile => exact .volatile _ _ _ _ _ _

theorem Moves.invariant {rn rn' : RaftNode D} {ws : List (StoreWrite D)} {P : RaftNode D → Prop}
    (h : Moves I rn ws rn') (hstep : ∀ {a ws b}, Move I a ws b → P a → P b) (h0 : P rn) : P rn' := by
  induction h with
  | refl => exact h0
  | tail _ hm ih => exact hstep hm ih

/-- The section makes moves whose writes are the section's, and ends in their last node
unless it panics. -/
def Outcome.Follows (I : Snapshot D → Prop) (rn : RaftNode D) (o : Outcome D ρ) : Prop :=
  ∃ rn', Moves I rn o.writes rn' ∧ ∀ x, o.result = .ok x → x.1 = rn'

theorem Outcome.follows_done {rn rn' : RaftNode D} {ws : List (StoreWrite D)} {r : ρ}
    (h : Moves I rn ws rn') : Outcome.Follows I rn (Outcome.done rn' ws r) := by
  refine ⟨rn', h, fun x hx => ?_⟩
  cases hx
  rfl

theorem Outcome.follows_error {rn rn' : RaftNode D} {ws : List (StoreWrite D)} {p : Panic}
    (h : Moves I rn ws rn') : Outcome.Follows I rn (⟨ws, .error p⟩ : Outcome D ρ) :=
  ⟨rn', h, by simp⟩

theorem Outcome.Follows.after {rn rn' : RaftNode D} {ws : List (StoreWrite D)}
    {o : Outcome D ρ} (h : o.Follows I rn') (hm : Moves I rn ws rn') : (o.after ws).Follows I rn := by
  obtain ⟨rn'', hm', hr⟩ := h
  exact ⟨rn'', hm.trans hm', hr⟩

theorem inTerm_moves (rn : RaftNode D) (term : ℕ) :
    Moves I rn (rn.adoptWrites term) (rn.inTerm term) := by
  by_cases h : rn.currentTerm < term
  · rw [adoptWrites, if_pos h]
    exact .single (.adopt rn term h)
  · rw [adoptWrites, inTerm, if_neg h, if_neg h]
    exact .refl

theorem followerOf_moves (rn : RaftNode D) (term : ℕ) (leaderID : NodeId) :
    Moves I rn (rn.adoptWrites term) (rn.followerOf term leaderID) := by
  rw [← List.append_nil (rn.adoptWrites term)]
  exact (inTerm_moves rn term).tail (.volatile _ _ _ _ _ _)

theorem becomeFollower_moves {rn : RaftNode D} {term : ℕ} (h : rn.currentTerm < term) :
    Moves I rn (rn.becomeFollowerLocked term).2 (rn.becomeFollowerLocked term).1 := by
  have heq := rn.adoptTerm_eq term
  rw [adoptTerm, if_pos h] at heq
  rw [heq]
  exact inTerm_moves rn term

namespace RaftNode

theorem handleRequestVote_follows (rn : RaftNode D) (args : RequestVoteArgs) :
    (rn.handleRequestVote args).Follows I rn := by
  rw [handleRequestVote_eq]
  split
  · exact Outcome.follows_done .refl
  · rename_i hterm
    push Not at hterm
    have hcur : (rn.inTerm args.term).currentTerm = args.term := by
      rw [inTerm_currentTerm]
      exact Nat.max_eq_right hterm.2
    split
    · rename_i hg
      have hw : [StoreWrite.saveHardState (D := D) ⟨args.term, args.candidateID⟩] =
          [.saveHardState ⟨(rn.inTerm args.term).currentTerm, args.candidateID⟩] := by rw [hcur]
      rw [hw]
      exact Outcome.follows_done ((inTerm_moves rn args.term).tail (.vote _ _ hg.2))
    · exact Outcome.follows_done (inTerm_moves rn args.term)

theorem splice_numbered {rn : RaftNode D} (hn : rn.log.Numbered) {e : LogEntry}
    {rest : List LogEntry} (hb : rn.log.base < e.index) (hl : e.index ≤ rn.log.lastLogIndex)
    (hc : Consecutive (e.index - 1) (e :: rest)) :
    RaftLog.Numbered ⟨rn.log.sentinel, rn.log.entries.take (e.index - rn.log.base - 1)⟩ ∧
    RaftLog.lastLogIndex ⟨rn.log.sentinel, rn.log.entries.take (e.index - rn.log.base - 1)⟩ =
      e.index - 1 ∧
    (rn.spliced e rest).log.Numbered ∧
    (rn.spliced e rest).log.lastLogIndex = e.index + rest.length := by
  have hcut : RaftLog.Numbered
      ⟨rn.log.sentinel, rn.log.entries.take (e.index - rn.log.base - 1)⟩ := hn.take _
  rw [hn.lastLogIndex_eq] at hl
  have hlen : (rn.log.entries.take (e.index - rn.log.base - 1)).length =
      e.index - rn.log.base - 1 := by
    rw [List.length_take]
    omega
  have hlast : RaftLog.lastLogIndex
      ⟨rn.log.sentinel, rn.log.entries.take (e.index - rn.log.base - 1)⟩ = e.index - 1 := by
    rw [hcut.lastLogIndex_eq]
    change rn.log.base + _ = _
    rw [hlen]
    omega
  have hsp : (rn.spliced e rest).log.Numbered := hcut.append (hlast.symm ▸ hc)
  refine ⟨hcut, hlast, hsp, ?_⟩
  rw [hsp.lastLogIndex_eq]
  change rn.log.base + (_ ++ _ : List LogEntry).length = _
  rw [List.length_append, hlen, List.length_cons]
  omega

theorem walk_moves {rn rn' : RaftNode D} (hn : rn.log.Numbered) {args : AppendEntriesArgs}
    {n : ℕ} {es : List LogEntry} (hc : Consecutive n es) (hle : n ≤ rn.log.lastLogIndex)
    {ws : List (StoreWrite D)} (hw : WalkOutcome rn args es (.done rn' ws ())) :
    Moves I rn ws rn' ∧ n + es.length ≤ rn'.log.lastLogIndex ∧
      rn'.commitIndex = rn.commitIndex ∧ rn'.currentTerm = rn.currentTerm := by
  generalize ho : Outcome.done rn' ws () = o at hw
  cases hw with
  | held hheld =>
    cases ho
    exact ⟨.refl, reach_of_held hn hle hc hheld, rfl, rfl⟩
  | extended skipped new heq hne _ hnew =>
    cases ho
    refine ⟨.single (.append rn new hnew), ?_, rfl, rfl⟩
    have hsp : (rn.appendLogLocked new).1.log.Numbered := hn.append hnew
    rw [hsp.lastLogIndex_eq]
    change _ ≤ rn.log.base + (rn.log.entries ++ new).length
    have hl := hn.lastLogIndex_eq
    rw [heq] at hc ⊢
    have hsecond := (consecutive_append.mp hc).2
    cases new with
    | nil => exact absurd rfl hne
    | cons e rest =>
      have h1 := hsecond.1
      have h2 := hnew.1
      simp only [List.length_append, List.length_cons]
      omega
  | cut skipped e rest heq _ hb hl ht hcm hself =>
    cases ho
    obtain ⟨hcut, hlast, hsp, hsplast⟩ := splice_numbered hn hb hl hself
    refine ⟨?_, ?_, rfl, rfl⟩
    · refine (Moves.single (.cut rn e.index hb hcm hl)).tail ?_
      exact Move.append _ (e :: rest) (hlast.symm ▸ hself)
    · rw [hsplast]
      rw [heq] at hc ⊢
      have hsecond := (consecutive_append.mp hc).2
      have h1 := hsecond.1
      simp only [List.length_append, List.length_cons]
      omega
  | refused => cases ho

theorem advanceFollowerCommit_moves {rn : RaftNode D} {args : AppendEntriesArgs}
    (hl : args.prevLogIndex + args.entries.length ≤ rn.log.lastLogIndex) :
    Moves I rn [] (rn.advanceFollowerCommit args) := by
  rcases rn.advanceFollowerCommit_cases args with ⟨_, heq⟩ | ⟨hlt, heq⟩
  · rw [heq]
    exact .refl
  · rw [heq]
    exact .single (.commit rn _ hlt.le (by omega))

theorem acceptEntries_follows {rn : RaftNode D} (hn : rn.log.Numbered) {args : AppendEntriesArgs}
    (hc : Consecutive args.prevLogIndex args.entries) :
    (rn.acceptEntries args).Follows I rn := by
  rcases acceptEntries_cases hn hc with ⟨_, reply, heq, _⟩ | ⟨hp, walk, hw, hres⟩
  · rw [heq]
    exact Outcome.follows_done .refl
  · rcases hres with ⟨p, _, heq⟩ | ⟨rn', ws, rfl, heq⟩
    · rw [heq]
      exact Outcome.follows_error .refl
    · obtain ⟨hm, hlast, _, _⟩ := walk_moves hn hc (hp.le_last hn) hw
      rw [heq]
      refine Outcome.follows_done ?_
      rw [← List.append_nil ws]
      exact hm.trans (advanceFollowerCommit_moves hlast)

theorem handleAppendEntries_follows {rn : RaftNode D} (hn : rn.log.Numbered)
    {args : AppendEntriesArgs} (hc : Consecutive args.prevLogIndex args.entries) :
    (rn.handleAppendEntries args).Follows I rn := by
  rw [handleAppendEntries_eq]
  split
  · exact Outcome.follows_done .refl
  · refine (acceptEntries_follows ?_ hc).after (followerOf_moves rn _ _)
    simpa using hn

structure Accepts (rn : RaftNode D) (args : InstallSnapshotArgs D) : Prop where
  running : rn.stopped = false
  term : rn.currentTerm ≤ args.term
  beyond : rn.commitIndex < args.lastIncludedIndex

theorem handleInstallSnapshot_follows {rn : RaftNode D} (hn : rn.log.Numbered)
    (args : InstallSnapshotArgs D) :
    (rn.handleInstallSnapshot args).Follows
      (fun snap => rn.Accepts args ∧ snap = args.snapshot) rn := by
  rw [handleInstallSnapshot_eq]
  split
  · exact Outcome.follows_done .refl
  · rename_i hok
    push Not at hok
    rw [acceptSnapshot_eq (by simpa using hn)]
    split
    · exact (Outcome.follows_done .refl).after (followerOf_moves rn _ _)
    · rename_i hgt
      refine (Outcome.follows_done ?_).after (followerOf_moves rn _ args.leaderID)
      rw [followerOf_commitIndex] at hgt
      have hlt : rn.commitIndex < args.lastIncludedIndex := not_le.mp hgt
      have ha : rn.Accepts args := ⟨by simpa using hok.1, hok.2, hlt⟩
      refine .single (.install _ args.snapshot ⟨ha, rfl⟩ ?_)
      rwa [followerOf_commitIndex]

theorem becomeLeaderLocked_moves (rn : RaftNode D) : Moves I rn [] rn.becomeLeaderLocked :=
  .single (.volatile rn .leader rn.id rn.votes _ _)

theorem startElectionIn_follows (rn : RaftNode D) (term : ℕ) :
    (rn.startElectionIn term).Follows I rn := by
  rw [startElectionIn]
  dsimp only
  split
  · refine Outcome.follows_done ?_
    rw [← List.append_nil (persistLocked _)]
    exact (Moves.single (.stand rn term)).trans (becomeLeaderLocked_moves _)
  · exact Outcome.follows_done (.single (.stand rn term))

theorem advanceCommitIndexLocked_moves {rn rn' : RaftNode D} (h : rn.Wf)
    (heq : rn.advanceCommitIndexLocked = .ok rn') : Moves I rn [] rn' := by
  obtain ⟨m, hm, hcases⟩ := advanceCommitIndexLocked_cases h.numbered h.base_le
  rw [hm] at heq
  cases heq
  rcases hcases with rfl | ⟨_, hlt, hle, _⟩
  · exact .single (.commit rn _ le_rfl h.commit_le)
  · exact .single (.commit rn _ hlt.le hle)

theorem propose_follows {rn : RaftNode D} (h : rn.Wf) (command : List UInt8) :
    (rn.propose command).Follows I rn := by
  rw [propose, proposeAt]
  by_cases hs : rn.state = .leader
  · rw [if_neg (by simp [hs])]
    dsimp only
    have hc : Consecutive rn.log.lastLogIndex
        [⟨rn.currentTerm, rn.log.lastLogIndex + 1, command⟩] := ⟨rfl, trivial⟩
    have hn : (rn.appendLogLocked
        [⟨rn.currentTerm, rn.log.lastLogIndex + 1, command⟩]).1.log.Numbered :=
      h.numbered.append hc
    have hwf : (rn.appendLogLocked
        [⟨rn.currentTerm, rn.log.lastLogIndex + 1, command⟩]).1.Wf := by
      refine ⟨hn, h.base_le, h.commit_le.trans ?_⟩
      rw [hn.lastLogIndex_eq, h.numbered.lastLogIndex_eq]
      simp [appendLogLocked, RaftLog.base]
    obtain ⟨m, hadv, _⟩ := advanceCommitIndexLocked_cases hwf.numbered hwf.base_le
    rw [hadv]
    refine Outcome.follows_done ?_
    rw [← List.append_nil (appendLogLocked _ _).2]
    exact (Moves.single (.append rn _ hc)).trans (advanceCommitIndexLocked_moves hwf hadv)
  · rw [if_pos hs]
    exact Outcome.follows_done .refl

theorem deposed_follows {rn : RaftNode D} {term : ℕ} (hlt : rn.currentTerm < term) :
    (rn.deposed term).Follows I rn :=
  Outcome.follows_done (becomeFollower_moves hlt)

theorem handleRequestVoteReply_follows (rn : RaftNode D) (term : ℕ) (reply : RequestVoteReply) :
    (rn.handleRequestVoteReply term reply).Follows I rn := by
  have hm : Moves I rn [] { rn with votes := rn.votes + 1 } :=
    .single (.volatile rn rn.state rn.leaderID _ rn.nextIndex rn.matchIndex)
  have hcases := rn.handleRequestVoteReply_cases term reply
  generalize rn.handleRequestVoteReply term reply = o at hcases ⊢
  cases hcases with
  | ignored => exact Outcome.follows_done .refl
  | deposed hlt => exact deposed_follows hlt
  | counted => exact Outcome.follows_done hm
  | won =>
    have hwon := hm.trans (becomeLeaderLocked_moves { rn with votes := rn.votes + 1 })
    rw [List.append_nil] at hwon
    exact Outcome.follows_done hwon

theorem caughtUpTo_moves (rn : RaftNode D) (peer : NodeId) (index : ℕ) :
    Moves I rn [] (rn.caughtUpTo peer index) :=
  .single (.volatile rn rn.state rn.leaderID rn.votes _ _)

theorem handleAppendEntriesReply_follows {rn : RaftNode D} (h : rn.Wf) (peer : NodeId)
    (term : ℕ) (args : AppendEntriesArgs) (reply : AppendEntriesReply) :
    (rn.handleAppendEntriesReply peer term args reply).Follows I rn := by
  have hm := rn.caughtUpTo_moves (I := I) peer (args.prevLogIndex + args.entries.length)
  have hwf : (rn.caughtUpTo peer (args.prevLogIndex + args.entries.length)).Wf :=
    ⟨h.numbered, h.base_le, h.commit_le⟩
  obtain ⟨m, hok, _⟩ := advanceCommitIndexLocked_cases hwf.numbered hwf.base_le
  have hcases := rn.handleAppendEntriesReply_cases peer term args reply
  generalize rn.handleAppendEntriesReply peer term args reply = o at hcases ⊢
  cases hcases with
  | ignored => exact Outcome.follows_done .refl
  | deposed hlt => exact deposed_follows hlt
  | confirmed _ _ _ hadv =>
    exact Outcome.follows_done (hm.trans (advanceCommitIndexLocked_moves hwf hadv))
  | panicked hadv =>
    rw [hok] at hadv
    cases hadv
  | rejected =>
    exact Outcome.follows_done
      (.single (.volatile rn rn.state rn.leaderID rn.votes _ rn.matchIndex))

theorem handleInstallSnapshotReply_follows (rn : RaftNode D) (peer : NodeId) (term : ℕ)
    (args : InstallSnapshotArgs D) (reply : InstallSnapshotReply) :
    (rn.handleInstallSnapshotReply peer term args reply).Follows I rn := by
  have hcases := rn.handleInstallSnapshotReply_cases peer term args reply
  generalize rn.handleInstallSnapshotReply peer term args reply = o at hcases ⊢
  cases hcases with
  | ignored => exact Outcome.follows_done .refl
  | deposed hlt => exact deposed_follows hlt
  | caughtUp => exact Outcome.follows_done (rn.caughtUpTo_moves peer _)

end RaftNode

end Raft
