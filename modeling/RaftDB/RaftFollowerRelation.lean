import RaftDB.RaftNodeRelation

/-!
# The request handlers refine the protocol

A granted vote is a vote for the candidacy that the request came from. A successful append
grafts a segment of the leader's log and learns of commits no further than the segment
reaches. An accepted snapshot reseats the log on the chosen prefix.
-/
namespace Raft

open Storage ClusterConfig ReplicatedLog MajorityQuorum LogPrefix Function
open RaftNode hiding id

variable {D : Type} {c : ValidCluster} {fresh : Prop} {I : Snapshot D → Prop} {n : NodeId}
  {a a' : Abstract} {rn : RaftNode D}

/-- The request describes the log with which its candidate stood. -/
structure VoteRel (a : Abstract) (args : RequestVoteArgs) : Prop where
  named : args.candidateID ≠ ""
  candidacy : ∃ r, a.candidacy args.candidateID args.term = some r ∧
    args.lastLogIndex = r.log.length ∧ args.lastLogTerm = lastTerm LogEntry.term r.log

/-- The request carries a segment of the log of its term's leader, and a commit index up to
which that log is chosen. -/
structure AppendRel (a : Abstract) (args : AppendEntriesArgs) : Prop where
  won : a.winner args.term ≠ none
  reach : args.prevLogIndex + args.entries.length ≤ (a.leaderLog args.term).length
  entries : args.entries =
    ((a.leaderLog args.term).drop args.prevLogIndex).take args.entries.length
  prevTerm : args.prevLogTerm =
    termBefore LogEntry.term (a.leaderLog args.term) args.prevLogIndex
  commit_le : args.leaderCommit ≤ (a.leaderLog args.term).length
  chosen : (a.leaderLog args.term).take args.leaderCommit <+: a.chosen
  covered : a.stale ∨ CoveredBy a (· ≤ args.term) args.leaderCommit

/-- The snapshot ends with a chosen entry; under `fresh` it was committed by the term of the
request, and that term has a leader. -/
structure SnapshotRel (fresh : Prop) (a : Abstract) (args : InstallSnapshotArgs D) : Prop where
  index_le : args.lastIncludedIndex ≤ a.chosen.length
  term : args.lastIncludedTerm = termBefore LogEntry.term a.chosen args.lastIncludedIndex
  covered : fresh → CoveredBy a (· ≤ args.term) args.lastIncludedIndex
  won : fresh → a.winner args.term ≠ none

theorem VoteRel.mono {args : RequestVoteArgs} (h : VoteRel a args) (hg : Grows a a') :
    VoteRel a' args := by
  obtain ⟨r, hr, hindex, hterm⟩ := h.candidacy
  exact ⟨h.named, r, hg.candidacy hr, hindex, hterm⟩

theorem AppendRel.mono {args : AppendEntriesArgs} (h : AppendRel a args) (hg : Grows a a') :
    AppendRel a' args := by
  have hp := hg.leaderLog args.term
  have hreach := h.reach
  have htake : ((a'.leaderLog args.term).drop args.prevLogIndex).take args.entries.length =
      ((a.leaderLog args.term).drop args.prevLogIndex).take args.entries.length := by
    rw [List.take_drop, List.take_drop, take_of_isPrefix hp (by omega)]
  refine ⟨hg.won h.won, hreach.trans hp.length_le, htake.symm ▸ h.entries, ?_,
    h.commit_le.trans hp.length_le, ?_, h.covered.imp hg.stale hg.covered⟩
  · rw [termBefore_of_isPrefix hp (by omega)]
    exact h.prevTerm
  · rw [take_of_isPrefix hp h.commit_le]
    exact h.chosen.trans hg.chosen

theorem SnapshotRel.mono {args : InstallSnapshotArgs D} (h : SnapshotRel fresh a args)
    (hg : Grows a a') : SnapshotRel fresh a' args :=
  ⟨h.index_le.trans hg.chosen.length_le,
    h.term.trans (termBefore_of_isPrefix hg.chosen h.index_le).symm,
    fun hf => hg.covered (h.covered hf), fun hf => hg.won (h.won hf)⟩

theorem AppendRel.getElem? {args : AppendEntriesArgs} (h : AppendRel a args) {k : ℕ}
    (hk : k < args.entries.length) :
    args.entries[k]? = (a.leaderLog args.term)[args.prevLogIndex + k]? := by
  rw [h.entries, List.getElem?_take_of_lt hk, List.getElem?_drop]

theorem AppendRel.numbered {args : AppendEntriesArgs} (h : AppendRel a args) (hx : Indexed a) :
    Consecutive args.prevLogIndex args.entries := by
  refine consecutive_of_index fun k e he => ?_
  rw [h.getElem? (lt_of_getElem? he)] at he
  exact hx he

section RequestVote

theorem Related.upToDate (h : Related c fresh n a rn) {args : RequestVoteArgs}
    {r : Candidacy LogEntry} (hindex : args.lastLogIndex = r.log.length)
    (hterm : args.lastLogTerm = lastTerm LogEntry.term r.log) (hup : rn.upToDate args = true) :
    UpToDate LogEntry.term r.log (a.log n) := by
  rw [RaftNode.upToDate, h.node.lastLogTerm h.valid h.wf.numbered,
    ← h.node.length h.valid h.wf.numbered, hindex, hterm] at hup
  rw [UpToDate]
  simp only [Bool.or_eq_true, Bool.and_eq_true, decide_eq_true_eq, beq_iff_eq] at hup
  rcases hup with hgt | ⟨heq, hge⟩
  · exact Or.inl hgt
  · exact Or.inr ⟨heq.symm, hge⟩

theorem Related.votes (h : Related c fresh n a rn) {args : RequestVoteArgs}
    (hr : VoteRel a args) (hcur : rn.currentTerm = args.term) (hg : rn.grants args) :
    Simulates c fresh I n a rn [.saveHardState ⟨args.term, args.candidateID⟩]
      (a.granted n args.candidateID) { rn with votedFor := args.candidateID } := by
  obtain ⟨r, hcand, hindex, hterm⟩ := hr.candidacy
  have hterm' : a.term n = args.term := h.node.term.trans hcur
  have hvote := voteOf_eq hr.named
  have hfree : a.voted n (a.term n) = none ∨ a.voted n (a.term n) = some args.candidateID := by
    rw [h.node.term, h.node.voted]
    rcases hg.2 with hnone | hsame
    · exact Or.inl (by rw [hnone]; rfl)
    · exact Or.inr (by rw [hsame, hvote])
  refine ⟨?_, .single (.grant a n args.candidateID r (by rw [hterm']; exact hcand) hfree
    (h.upToDate hindex hterm hg.1)), ?_, h.indexed, h.matched, h.unstale⟩
  · rw [← hcur]
    exact .single (.vote rn args.candidateID hg.2)
  · refine ⟨h.node.term, h.node.role, ?_, h.node.base, h.node.commit, h.node.log,
      h.node.sentinel⟩
    rw [hvote]
    change (a.granted n args.candidateID).voted n rn.currentTerm = _
    simp only [State.granted, update₂_apply]
    exact if_pos ⟨trivial, h.node.term.symm⟩

theorem Related.handleRequestVote (h : Related c fresh n a rn) {args : RequestVoteArgs}
    (hr : VoteRel a args) :
    (rn.handleRequestVote args).Simulated c fresh I n a rn fun a' rn' reply =>
      Subdued rn rn' ∧
        (reply.voteGranted = true → a'.voted n args.term = some args.candidateID) := by
  rw [handleRequestVote_eq]
  split
  · exact Outcome.simulated_done h.simulates_self ⟨.refl rn, by simp⟩
  rename_i hok
  push Not at hok
  obtain ⟨a', hs⟩ := h.adopts (I := I) args.term
  have hcur : (rn.inTerm args.term).currentTerm = args.term := by
    rw [inTerm_currentTerm]
    exact Nat.max_eq_right hok.2
  split
  · rename_i hg
    have hrel := hs.related h
    have hv := hrel.votes (I := I) (hr.mono (hs.acts.grows h.valid)) hcur hg
    refine Outcome.simulated_done (hs.trans hv) ⟨?_, fun _ => ?_⟩
    · exact ⟨(subdued_inTerm rn args.term).leader, (subdued_inTerm rn args.term).candidate⟩
    · have hnode := hv.node.voted
      rw [voteOf_eq hr.named] at hnode
      rwa [show ({ rn.inTerm args.term with votedFor := args.candidateID } :
        RaftNode D).currentTerm = args.term from hcur] at hnode
  · exact Outcome.simulated_done hs ⟨subdued_inTerm rn args.term, by simp⟩

end RequestVote

section AppendEntries

variable {args : AppendEntriesArgs}

theorem AppendRel.rest_eq (hr : AppendRel a args) {skipped rest : List LogEntry}
    (heq : args.entries = skipped ++ rest) :
    ((a.leaderLog args.term).take (args.prevLogIndex + args.entries.length)).drop
      (args.prevLogIndex + skipped.length) = rest := by
  have hseg : ((a.leaderLog args.term).take (args.prevLogIndex + args.entries.length)).drop
      args.prevLogIndex = args.entries := by
    rw [List.drop_take, Nat.add_sub_cancel_left]
    exact hr.entries.symm
  rw [← List.drop_drop, hseg, heq, List.drop_left]

theorem Related.held_sameTerm (h : Related c fresh n a rn) (hr : AppendRel a args) {k : ℕ}
    {e : LogEntry} (he : args.entries[k]? = some e) (hheld : Held rn.log e)
    (hb : rn.log.base ≤ args.prevLogIndex + k) :
    SameTermAt LogEntry.term (a.log n) (a.leaderLog args.term) (args.prevLogIndex + k) := by
  have hidx := (hr.numbered h.indexed).index_eq he
  obtain ⟨hl, ht⟩ := hheld.resolve_left (by omega)
  rw [h.node.termAt h.valid h.wf.numbered (by omega) hl, hidx, termBefore] at ht
  rw [hr.getElem? (lt_of_getElem? he)] at he
  have hlen : args.prevLogIndex + k < (a.log n).length := by
    rw [h.node.length h.valid h.wf.numbered]
    omega
  have hx : (a.log n)[args.prevLogIndex + k]? = some (a.log n)[args.prevLogIndex + k] :=
    List.getElem?_eq_getElem hlen
  rw [hx] at ht
  exact ⟨_, e, hx, he, Option.some.inj ht⟩

theorem Related.skipped_sameTerm (h : Related c fresh n a rn) (hr : AppendRel a args)
    {skipped rest : List LogEntry} (heq : args.entries = skipped ++ rest)
    (hheld : ∀ e ∈ skipped, Held rn.log e) :
    ∀ i, max args.prevLogIndex (a.base n) ≤ i → i < args.prevLogIndex + skipped.length →
      SameTermAt LogEntry.term (a.log n) (a.leaderLog args.term) i := by
  intro i hi hlt
  rw [h.node.base] at hi
  obtain ⟨k, rfl⟩ : ∃ k, i = args.prevLogIndex + k := ⟨i - args.prevLogIndex, by omega⟩
  have hk : k < skipped.length := by omega
  have he : args.entries[k]? = some skipped[k] := by
    rw [heq, List.getElem?_append_left hk]
    exact List.getElem?_eq_getElem hk
  exact h.held_sameTerm hr he (hheld _ (List.getElem_mem hk)) (by omega)

structure Walked (a : Abstract) (n : NodeId) (rn : RaftNode D) (args : AppendEntriesArgs)
    (rn' : RaftNode D) : Prop where
  grafted : Grafted LogEntry.term (a.leaderLog args.term) (max args.prevLogIndex (a.base n))
    (args.prevLogIndex + args.entries.length) (a.log n)
    (a.chosen.take rn.log.base ++ rn'.log.entries)
  kept : (a.chosen.take rn.log.base ++ rn'.log.entries).take (a.commit n) =
    (a.log n).take (a.commit n)
  same : ∃ entries, rn' = { rn with log := ⟨rn.log.sentinel, entries⟩ }

theorem Related.walked (h : Related c fresh n a rn) (hr : AppendRel a args) {rn' : RaftNode D}
    {ws : List (StoreWrite D)} (hw : WalkOutcome rn args args.entries (.done rn' ws ())) :
    Walked a n rn args rn' := by
  have hn := h.wf.numbered
  have hnum := hr.numbered h.indexed
  have hlen := h.node.length h.valid hn
  have hcommit : a.commit n ≤ rn.log.lastLogIndex := by
    rw [h.node.commit]
    exact h.wf.commit_le
  have hbase := h.node.base
  have hlast := hn.lastLogIndex_eq
  rcases hw.done_cases hn with ⟨heq, _, hheld⟩ | ⟨skipped, new, k, hsp, heq, _⟩
  · refine ⟨?_, ?_, rn.log.entries, heq⟩ <;> rw [heq, ← h.node.log]
    exact .kept (h.skipped_sameTerm hr (List.append_nil _).symm hheld)
  · have hstart := hsp.start hnum
    have hlog : a.chosen.take rn.log.base ++ rn'.log.entries =
        (a.log n).take (args.prevLogIndex + skipped.length) ++
          ((a.leaderLog args.term).take (args.prevLogIndex + args.entries.length)).drop
            (args.prevLogIndex + skipped.length) := by
      have hcut := RaftLog.history_cut (h.node.base_le h.valid) k new
      rw [← h.node.history, ← hstart] at hcut
      rw [hr.rest_eq hsp.split, heq]
      exact hcut
    have hcount : args.entries.length = skipped.length + new.length := by
      rw [hsp.split, List.length_append]
    have hpos := List.length_pos_of_ne_nil hsp.nonempty
    have hk := hsp.within
    refine ⟨?_, ?_, _, heq⟩ <;> rw [hlog]
    · refine .cut _ (by omega) (by omega) (by omega) (h.skipped_sameTerm hr hsp.split hsp.held) ?_
      rintro ⟨x, y, hx, hy, hxy⟩
      rcases hsp.place with hend | ⟨_, hlt, e, rest, rfl, hne⟩
      · have := lt_of_getElem? hx
        omega
      · have hindex := hsp.numbered.1
        rw [← hstart] at hindex
        have he : args.entries[skipped.length]? = some e := by
          rw [hsp.split, List.getElem?_append_right le_rfl, Nat.sub_self]
          rfl
        rw [hr.getElem? (lt_of_getElem? he), hy] at he
        cases he
        apply hne
        rw [h.node.termAt h.valid hn (by omega) (by omega), hindex, termBefore, hx]
        exact congrArg some hxy
    · have hcm : a.commit n ≤ args.prevLogIndex + skipped.length := by
        have hcommit' := h.node.commit
        rcases hsp.place with hend | ⟨hcm, _⟩ <;> omega
      rw [List.take_append_of_le_length (by rw [List.length_take]; omega), List.take_take,
        Nat.min_eq_left hcm]

/-- The consistency check compares the predecessor with that of the leader's log. -/
theorem Related.prev_agrees (h : Related c fresh n a rn) (hr : AppendRel a args)
    (hp : rn.PrevMatches args) :
    args.prevLogIndex < a.base n ∨ args.prevLogIndex ≤ (a.log n).length ∧
      termBefore LogEntry.term (a.log n) args.prevLogIndex =
        termBefore LogEntry.term (a.leaderLog args.term) args.prevLogIndex := by
  rw [h.node.base, h.node.length h.valid h.wf.numbered]
  by_cases hb : args.prevLogIndex < rn.log.base
  · exact Or.inl hb
  · obtain ⟨hl, ht⟩ := hp.resolve_left hb
    rw [h.node.termAt h.valid h.wf.numbered (not_lt.mp hb) hl, hr.prevTerm] at ht
    exact Or.inr ⟨hl, Option.some.inj ht⟩

theorem Related.accepts (h : Related c fresh n a rn) (hr : AppendRel a args)
    (hcur : rn.currentTerm = args.term) (hfol : rn.state = .follower)
    (hp : rn.PrevMatches args) {rn' : RaftNode D} {ws : List (StoreWrite D)}
    (hw : WalkOutcome rn args args.entries (.done rn' ws ())) :
    Simulates c fresh I n a rn ws
      (a.accepted n (args.prevLogIndex + args.entries.length)
        (a.chosen.take rn.log.base ++ rn'.log.entries)) rn' := by
  obtain ⟨hg, hkept, entries, hsame⟩ := h.walked hr hw
  have hT : a.term n = args.term := h.node.term.trans hcur
  have hrole : a.role n = .follower := by
    rw [h.node.role, hfol]
    rfl
  have hmoves := (walk_moves (I := I) h.wf.numbered (hr.numbered h.indexed)
    (hp.le_last h.wf.numbered) hw).1
  refine ⟨hmoves, .single ?_, ?_, h.indexed, ?_, h.unstale⟩
  · refine .accept a n args.prevLogIndex _ _ hrole ?_ (Nat.le_add_right _ _) ?_ ?_ ?_ hkept
    · rw [hT]
      exact hr.won
    · rw [hT]
      exact hr.reach
    · rw [hT]
      exact h.prev_agrees hr hp
    · rw [hT]
      exact hg
  · subst hsame
    exact ⟨h.node.term, h.node.role, h.node.voted, h.node.base, h.node.commit,
      update_self _ _ _, h.node.sentinel⟩
  · subst hsame
    exact Matched.of_follower hfol

theorem Related.learns (h : Related c fresh n a rn) (hr : AppendRel a args)
    (hcur : rn.currentTerm = args.term) (hfol : rn.state = .follower)
    (hreach : args.prevLogIndex + args.entries.length ≤ rn.log.lastLogIndex)
    (hagree : ∀ i, a.base n ≤ i → i < args.prevLogIndex + args.entries.length →
      (a.log n)[i]? = (a.leaderLog args.term)[i]?) :
    ∃ commit, Simulates c fresh I n a rn [] { a with commit := commit }
      (rn.advanceFollowerCommit args) := by
  have hself : Simulates c fresh I n a rn [] { a with commit := a.commit } rn := h.simulates_self
  have hmoves := advanceFollowerCommit_moves (I := I) hreach
  rcases rn.advanceFollowerCommit_cases args with ⟨_, heq⟩ | ⟨hlt, heq⟩
  · rw [heq]
    exact ⟨_, hself⟩
  rw [heq] at hmoves ⊢
  have hT : a.term n = args.term := h.node.term.trans hcur
  have hrole : a.role n = .follower := by
    rw [h.node.role, hfol]
    rfl
  refine ⟨update a.commit n (min args.leaderCommit (args.prevLogIndex + args.entries.length)),
    hmoves, .single (.learn a n _ hrole ?_ ?_ ?_ ?_ ?_), ?_, h.indexed, ?_, h.unstale⟩
  · rw [h.node.commit]
    exact hlt.le
  · rw [h.node.length h.valid h.wf.numbered]
    omega
  · intro i hb hi
    rw [hT]
    exact hagree i hb (hi.trans_le (Nat.min_le_right _ _))
  · rw [hT]
    exact (List.take_prefix_take_left (Nat.min_le_left _ _)).trans hr.chosen
  · rw [hT]
    exact hr.covered.imp_right fun hc =>
      hc.mono (fun _ hcm => hcm) (fun _ ht => ht) (Nat.min_le_left _ _)
  · exact ⟨h.node.term, h.node.role, h.node.voted, h.node.base, update_self _ _ _,
      h.node.log, h.node.sentinel⟩
  · exact Matched.of_follower hfol

/-- Unless something stale was installed, no leader contradicts a committed entry. -/
theorem Related.not_refused (h : Related c fresh n a rn) (hr : AppendRel a args) (hf : fresh)
    (hcur : rn.currentTerm = args.term) {e : Panic} :
    ¬WalkOutcome rn args args.entries ⟨[], .error e⟩ := by
  intro hw
  generalize ho : (⟨[], .error e⟩ : Outcome D Unit) = o at hw
  cases hw with
  | refused skipped x rest hes hheld hb hl ht hcm =>
    have hT : a.term n = args.term := h.node.term.trans hcur
    have hj : x.index = args.prevLogIndex + skipped.length + 1 := by
      have hnum := hr.numbered h.indexed
      rw [hes] at hnum
      exact (consecutive_append.mp hnum).2.1
    have hx : args.entries[skipped.length]? = some x := by
      rw [hes, List.getElem?_append_right le_rfl, Nat.sub_self]
      rfl
    rw [hr.getElem? (lt_of_getElem? hx)] at hx
    have hcommit := Invariant.fresh_commit (w := n) h.valid (h.unstale hf) (hT ▸ hr.won)
    have hsame : (a.log n)[args.prevLogIndex + skipped.length]? = some x := by
      rw [getElem?_of_take_eq hcommit (by rw [h.node.commit]; omega), hT]
      exact hx
    apply ht
    rw [h.node.termAt h.valid h.wf.numbered hb.le hl, hj, termBefore, hsame]
    rfl
  | _ => exact absurd (congrArg Outcome.result ho) (by simp [Outcome.done])

theorem Related.acceptEntries (h : Related c fresh n a rn) (hr : AppendRel a args)
    (hcur : rn.currentTerm = args.term) (hfol : rn.state = .follower) :
    (rn.acceptEntries args).Simulated c fresh I n a rn fun a' rn' reply =>
      rn'.state = .follower ∧ (reply.success = true →
        args.prevLogIndex + args.entries.length ≤ a'.confirmed n args.term) := by
  rcases acceptEntries_cases h.wf.numbered (hr.numbered h.indexed) with
    ⟨_, reply, heq, _, hfail⟩ | ⟨hp, walk, hw, hres⟩
  · rw [heq]
    exact Outcome.simulated_done h.simulates_self ⟨hfol, by simp [hfail]⟩
  rcases hres with ⟨e, rfl, heq⟩ | ⟨rn', ws, rfl, heq⟩
  · rw [heq]
    exact Outcome.simulated_error h.simulates_self
      fun hf => absurd hw (h.not_refused hr hf hcur)
  · have hacc := h.accepts (I := I) hr hcur hfol hp hw
    obtain ⟨hg, _, entries, hsame⟩ := h.walked hr hw
    obtain ⟨_, hreach, _, hterm⟩ := walk_moves (I := I) h.wf.numbered (hr.numbered h.indexed)
      (hp.le_last h.wf.numbered) hw
    have hrel := hacc.related h
    have hfol' : rn'.state = .follower := by rw [hsame]; exact hfol
    have hagree := Invariant.accept_agree h.valid (h.prev_agrees hr hp) (Nat.le_add_right _ _)
      hr.reach hg
    obtain ⟨commit, hlearn⟩ := hrel.learns (I := I) (hr.mono (hacc.acts.grows h.valid))
      (hterm.trans hcur) hfol' hreach (by
        intro i hb hi
        rw [accepted_log_self]
        exact hagree i hb hi)
    rw [heq, ← List.append_nil ws]
    refine Outcome.simulated_done (hacc.trans hlearn) ⟨?_, fun _ => ?_⟩
    · rcases rn'.advanceFollowerCommit_cases args with ⟨_, heq⟩ | ⟨_, heq⟩ <;> rw [heq] <;>
        exact hfol'
    · have hT : a.term n = args.term := h.node.term.trans hcur
      rw [accepted_confirmed, if_pos ⟨rfl, hT.symm⟩]
      exact le_max_right _ _

theorem Related.handleAppendEntries (h : Related c fresh n a rn) (hr : AppendRel a args) :
    (rn.handleAppendEntries args).Simulated c fresh I n a rn fun a' rn' reply =>
      Subdued rn rn' ∧ (reply.success = true →
        args.prevLogIndex + args.entries.length ≤ a'.confirmed n args.term) := by
  rw [handleAppendEntries_eq]
  split
  · exact Outcome.simulated_done h.simulates_self ⟨.refl rn, by simp⟩
  · rename_i hok
    push Not at hok
    have hs := h.follows (I := I) hok.2 args.leaderID
    have hcur : (rn.followerOf args.term args.leaderID).currentTerm = args.term := by
      change (rn.inTerm args.term).currentTerm = _
      rw [inTerm_currentTerm, Nat.max_eq_right hok.2]
    refine Outcome.Simulated.after hs (((hs.related h).acceptEntries
      (hr.mono (hs.acts.grows h.valid)) hcur rfl).mono fun hp => ?_)
    exact ⟨.of_follower hp.1, hp.2⟩

end AppendEntries

section InstallSnapshot

variable {args : InstallSnapshotArgs D}

theorem Related.installs (h : Related c fresh n a rn) (hr : SnapshotRel fresh a args)
    (hcur : rn.currentTerm = args.term) (hfol : rn.state = .follower)
    (hlt : rn.commitIndex < args.lastIncludedIndex) (hI : I args.snapshot) :
    Simulates c fresh I n a rn [.saveSnapshot args.snapshot,
        .compact (rn.suffixBeyond args.lastIncludedIndex args.lastIncludedTerm)]
      (a.installed LogEntry.term n args.lastIncludedIndex)
      (rn.installedSnapshot args.snapshot) := by
  have hrole : a.role n = .follower := by
    rw [h.node.role, hfol]
    rfl
  have hb : rn.log.base < args.lastIncludedIndex := h.wf.base_le.trans_lt hlt
  obtain ⟨k, hk⟩ : ∃ k, args.lastIncludedIndex = k + 1 :=
    ⟨args.lastIncludedIndex - 1, by omega⟩
  have hkc : k < a.chosen.length := by
    have := hr.index_le
    omega
  have hsame : SameTermAt LogEntry.term (a.log n) a.chosen (args.lastIncludedIndex - 1) ↔
      rn.log.base ≤ args.lastIncludedIndex ∧ args.lastIncludedIndex ≤ rn.log.lastLogIndex ∧
        rn.log.termAt args.lastIncludedIndex = some args.lastIncludedTerm := by
    have hy : a.chosen[k]? = some a.chosen[k] := List.getElem?_eq_getElem hkc
    have hlen := h.node.length h.valid h.wf.numbered
    rw [hr.term, hk, Nat.add_sub_cancel, termBefore, hy]
    constructor
    · rintro ⟨x, y, hx, hy', hxy⟩
      have hxl := lt_of_getElem? hx
      rw [hy] at hy'
      cases hy'
      refine ⟨by omega, by omega, ?_⟩
      rw [h.node.termAt h.valid h.wf.numbered (by omega) (by omega), termBefore, hx]
      exact congrArg some hxy
    · rintro ⟨_, hl, ht⟩
      have hx : (a.log n)[k]? = some ((a.log n).get ⟨k, by omega⟩) :=
        List.getElem?_eq_getElem (by omega)
      rw [h.node.termAt h.valid h.wf.numbered (by omega) hl, termBefore, hx] at ht
      exact ⟨_, _, hx, hy, Option.some.inj ht⟩
  refine ⟨.single (.install rn args.snapshot hI hlt), .single (.install a n _ hrole ?_ hr.index_le),
    ?_, h.indexed, Matched.of_follower hfol, ?_⟩
  · rw [h.node.commit]
    exact hlt
  · refine ⟨h.node.term, h.node.role, h.node.voted, update_self _ _ _, update_self _ _ _, ?_,
      hr.term⟩
    refine (update_self _ _ _).trans ?_
    rw [reseated]
    congr 1
    change _ = rn.suffixBeyond args.lastIncludedIndex args.lastIncludedTerm
    rw [suffixBeyond]
    by_cases ht : SameTermAt LogEntry.term (a.log n) a.chosen (args.lastIncludedIndex - 1)
    · rw [if_pos ht, if_pos (hsame.mp ht), h.node.drop h.valid hb.le]
    · rw [if_neg ht, if_neg (fun hc => ht (hsame.mpr hc))]
  · intro hf
    rintro (hst | hnc)
    · exact h.unstale hf hst
    · rw [h.node.term, hcur] at hnc
      exact hnc (hr.covered hf)

theorem Related.handleInstallSnapshot (h : Related c fresh n a rn)
    (hr : SnapshotRel fresh a args) :
    (rn.handleInstallSnapshot args).Simulated c fresh (· = args.snapshot) n a rn
      fun _ rn' _ => Subdued rn rn' := by
  rw [handleInstallSnapshot_eq]
  split
  · exact Outcome.simulated_done h.simulates_self (.refl rn)
  · rename_i hok
    push Not at hok
    have hs := h.follows (I := (· = args.snapshot)) hok.2 args.leaderID
    have hrel := hs.related h
    rw [acceptSnapshot_eq hrel.wf.numbered]
    refine Outcome.Simulated.after hs ?_
    split
    · exact Outcome.simulated_done hrel.simulates_self (.of_follower rfl)
    · rename_i hgt
      refine Outcome.simulated_done (hrel.installs (hr.mono (hs.acts.grows h.valid)) ?_ rfl
        (not_le.mp hgt) rfl) (.of_follower rfl)
      change (rn.inTerm args.term).currentTerm = _
      rw [inTerm_currentTerm, Nat.max_eq_right hok.2]

end InstallSnapshot

end Raft
