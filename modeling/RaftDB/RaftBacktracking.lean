import RaftDB.RaftAgreement

/-!
# The search for a common index

A leader and one follower exchange requests and replies, and nothing else happens. Each rejection
moves the next index below the rejected predecessor, so the search ends: with a success, after
which the logs agree, or at the boundary of the leader, where a snapshot takes over. That a hint
never sends the leader back up rests on more than matching logs. The entries of a term must come
from one leader's log: if both logs have entries of the term, the one that reaches further has all
that the other has.
-/
namespace Raft

open Storage LogPrefix ReplicatedLog TransitionSystem
open RaftNode hiding id

variable {D : Type}

section Search

variable {log : RaftLog} {t n : ℕ} {es : List LogEntry}

theorem lastOfTerm_some (h : lastOfTerm t es = some n) :
    ∃ front e rest, es = front ++ e :: rest ∧ e.term = t ∧ n = e.index + 1 ∧
      ∀ x ∈ front, t < x.term := by
  induction es with
  | nil => cases h
  | cons x xs ih =>
    rw [lastOfTerm] at h
    split at h
    · rename_i hx
      cases h
      exact ⟨[], x, xs, rfl, hx, rfl, by simp⟩
    split at h
    · cases h
    · rename_i hne hge
      obtain ⟨front, e, rest, rfl, he, hn, hfront⟩ := ih h
      refine ⟨x :: front, e, rest, rfl, he, hn, ?_⟩
      intro y hy
      rcases List.mem_cons.mp hy with rfl | hy
      · omega
      · exact hfront y hy

theorem lastOfTerm_none (h : lastOfTerm t es = none)
    (hs : es.Pairwise fun x y => y.term ≤ x.term) : ∀ x ∈ es, x.term ≠ t := by
  induction es with
  | nil => simp
  | cons x xs ih =>
    obtain ⟨hx, hxs⟩ := List.pairwise_cons.mp hs
    rw [lastOfTerm] at h
    split at h
    · cases h
    rename_i hne
    split at h
    · rename_i hlt
      intro y hy
      rcases List.mem_cons.mp hy with rfl | hy
      · exact hne
      · have := hx y hy
        omega
    · intro y hy
      rcases List.mem_cons.mp hy with rfl | hy
      · exact hne
      · exact ih h hxs y hy

theorem RaftLog.Numbered.lastOfTerm_some (hn : log.Numbered)
    (h : lastOfTerm t log.entries.reverse = some n) :
    ∃ k, n = k + 1 ∧ log.base < k ∧ log.termAt k = some t ∧
      ∀ j u, k < j → log.termAt j = some u → t < u := by
  obtain ⟨front, e, rest, hsplit, hterm, hindex, hfront⟩ := Raft.lastOfTerm_some h
  have hentries : log.entries = rest.reverse ++ e :: front.reverse := by
    rw [← log.entries.reverse_reverse, hsplit]
    simp
  have hget : log.entries[rest.length]? = some e := by simp [hentries]
  have hi := hn.index_eq hget
  refine ⟨e.index, hindex, by omega, ?_, ?_⟩
  · rw [log.termAt_above (by omega), show e.index - log.base - 1 = rest.length by omega, hget,
      Option.map_some, hterm]
  · intro j u hj hu
    rw [log.termAt_above (by omega)] at hu
    obtain ⟨y, hy, rfl⟩ := Option.map_eq_some_iff.mp hu
    obtain ⟨m, hm⟩ : ∃ m, j - log.base - 1 = rest.reverse.length + (m + 1) :=
      ⟨j - e.index - 1, by rw [List.length_reverse]; omega⟩
    rw [hentries, hm, List.getElem?_append_right (by omega), Nat.add_sub_cancel_left,
      List.getElem?_cons_succ] at hy
    exact hfront y (List.mem_reverse.mp (List.mem_of_getElem? hy))

theorem RaftLog.Ordered.lastOfTerm_none (ho : log.Ordered)
    (h : lastOfTerm t log.entries.reverse = none) {k : ℕ} (hb : log.base < k) :
    log.termAt k ≠ some t := by
  intro hk
  rw [log.termAt_above hb] at hk
  obtain ⟨x, hx, hterm⟩ := Option.map_eq_some_iff.mp hk
  have hrev := List.pairwise_reverse.mpr (List.pairwise_cons.mp ho).2
  exact Raft.lastOfTerm_none h hrev x (List.mem_reverse.mpr (List.mem_of_getElem? hx)) hterm

end Search

section Exchange

inductive Round (D : Type) where
  | snapshot
  | accepted (leader follower : RaftNode D)
  | rejected (leader follower : RaftNode D)

/-- The leader builds its request for the peer, the peer handles it, and the leader takes in the
reply. -/
def exchange (peer : NodeId) (leader follower : RaftNode D) : Except Panic (Round D) :=
  match leader.outboundTo leader.currentTerm peer with
  | none => .error .indexOutOfRange
  | some (.snapshot _) => .ok .snapshot
  | some (.append _ args) =>
    match (follower.handleAppendEntries args).result with
    | .error p => .error p
    | .ok (follower, reply) =>
      match (leader.handleAppendEntriesReply peer leader.currentTerm args reply).result with
      | .error p => .error p
      | .ok (leader, _) =>
        .ok (if reply.success then .accepted leader follower else .rejected leader follower)

def rejection (peer : NodeId) (pair : RaftNode D × RaftNode D) (_ : Unit) :
    Option (RaftNode D × RaftNode D) :=
  match exchange peer pair.1 pair.2 with
  | .ok (.rejected leader follower) => some (leader, follower)
  | _ => none

/-- If the logs have entries of the same index and term, they are the same up to there. -/
def Matching (log log' : RaftLog) : Prop :=
  ∀ i t, log.base < i → log'.base < i → log.termAt i = some t → log'.termAt i = some t →
    ∀ j, log.base < j → log'.base < j → j ≤ i → log.entryAt j = log'.entryAt j

/-- Where the follower's log has an entry of a term, so has the leader's, if it has entries of
that term further on. -/
def SharedTerms (leader follower : RaftLog) : Prop :=
  ∀ j k t, follower.base < j → leader.base ≤ j → j ≤ k → leader.base < k →
    follower.termAt j = some t → leader.termAt k = some t → leader.termAt j = some t

/-- A leader with the history `LH`, and a follower in no later term whose log matches the
leader's and whose committed entries are in that history. -/
structure Paired (LH : List LogEntry) (peer : NodeId) (leader follower : RaftNode D) : Prop where
  leads : leader.state = .leader
  running : leader.stopped = false ∧ follower.stopped = false
  term_le : follower.currentTerm ≤ leader.currentTerm
  next_le : leader.nextIndex peer ≤ leader.log.lastLogIndex + 1
  whole : leader.log.history LH = LH
  owns : Contained LH leader
  contained : Contained LH follower
  ordered : leader.log.Ordered ∧ follower.log.Ordered
  matching : Matching leader.log follower.log

/-- The logs have the same entries, from beyond both boundaries to the end of the leader's. -/
def AgreesThrough (leader follower : RaftLog) : Prop :=
  leader.lastLogIndex ≤ follower.lastLogIndex ∧
    ∀ i, leader.base < i → follower.base < i → i ≤ leader.lastLogIndex →
      follower.entryAt i = leader.entryAt i

variable {LH : List LogEntry} {peer : NodeId} {leader follower : RaftNode D}
  {args : AppendEntriesArgs} {reply : AppendEntriesReply}

theorem Paired.length (h : Paired LH peer leader follower) :
    leader.log.lastLogIndex = LH.length := by
  rw [← h.owns.length, h.whole]

theorem Paired.termAt (h : Paired LH peer leader follower) {i : ℕ} (hb : leader.log.base ≤ i)
    (hi : i ≤ LH.length) : leader.log.termAt i = some (termBefore LogEntry.term LH i) := by
  have hterm := termAt_history h.owns.wf.numbered h.owns.base_le h.owns.boundary hb
    (h.length.symm ▸ hi)
  rwa [h.whole] at hterm

theorem Paired.next_le_prev (h : Paired LH peer leader follower)
    (hshared : SharedTerms leader.log follower.log) (hhint : Hint follower args reply)
    (hb : leader.log.base ≤ args.prevLogIndex) (hl : args.prevLogIndex ≤ LH.length)
    (hprev : leader.log.termAt args.prevLogIndex = some args.prevLogTerm) :
    nextIndexAfterRejection leader.log args.prevLogIndex reply ≤ args.prevLogIndex := by
  cases hhint with
  | short hlast hterm hindex =>
    rw [nextIndexAfterRejection, if_pos hterm, if_pos (by omega)]
    omega
  | conflict hbase hlast hne hfirst hbeyond hrun =>
    have hterm := hrun _ hfirst le_rfl
    have hlt : follower.log.base < args.prevLogIndex := by
      apply lt_of_le_of_ne hbase
      intro heq
      rw [h.termAt hb hl, ← heq] at hprev
      rw [← heq, follower.log.termAt_base, h.contained.boundary] at hterm
      exact hne (Option.some.inj (hterm.symm.trans hprev))
    rw [nextIndexAfterRejection]
    by_cases hzero : reply.conflictTerm = 0
    · have := hbeyond hlt
      rwa [if_pos hzero, if_pos (by omega)]
    rw [if_neg hzero]
    cases hscan : lastOfTerm reply.conflictTerm leader.log.entries.reverse with
    | none => exact hfirst
    | some next =>
      obtain ⟨k, rfl, hk, hkt, _⟩ := h.owns.wf.numbered.lastOfTerm_some hscan
      change k + 1 ≤ args.prevLogIndex
      by_contra hge
      have hsame := hshared _ k _ hlt hb (by omega) hk hterm hkt
      rw [hprev] at hsame
      exact hne (Option.some.inj hsame).symm

theorem Paired.agreement_lt_prev (h : Paired LH peer leader follower)
    (hhint : Hint follower args reply) (hzero : leader.log.base = 0)
    (hl : args.prevLogIndex ≤ LH.length)
    (hprev : leader.log.termAt args.prevLogIndex = some args.prevLogTerm) :
    agreement LH follower.log < args.prevLogIndex := by
  cases hhint with
  | short hlast => exact h.contained.agreement_le.1.trans_lt hlast
  | conflict hb hlast hne hfirst _ hrun =>
    by_contra hge
    have hterm := hrun _ hfirst le_rfl
    rw [h.contained.term_of_agrees hb (not_lt.mp hge),
      ← h.termAt (hzero ▸ Nat.zero_le _) hl, hprev] at hterm
    exact hne (Option.some.inj hterm).symm

/-- In an uncompacted log of the leader the hint does not go below the first index that may
differ. -/
theorem Paired.agreement_lt_next (h : Paired LH peer leader follower)
    (hpos : ∀ e ∈ follower.log.entries, 1 ≤ e.term) (hhint : Hint follower args reply)
    (hzero : leader.log.base = 0) (hl : args.prevLogIndex ≤ LH.length)
    (hprev : leader.log.termAt args.prevLogIndex = some args.prevLogTerm) :
    agreement LH follower.log + 1 ≤
      nextIndexAfterRejection leader.log args.prevLogIndex reply := by
  have hag := h.contained.agreement_le
  have hbase := base_le_agreement h.contained.base_le
  have hF := h.contained.term_of_agrees hbase le_rfl
  have hL := h.termAt (hzero ▸ Nat.zero_le _) hag.2
  have hlt := h.agreement_lt_prev hhint hzero hl hprev
  cases hhint with
  | short hlast hterm hindex =>
    rw [nextIndexAfterRejection, if_pos hterm, if_pos (by omega)]
    omega
  | conflict hb hlast hne hfirst hbeyond hrun =>
    have hterm := hrun _ hfirst le_rfl
    have hnonzero : reply.conflictTerm ≠ 0 := by
      rw [follower.log.termAt_above (by omega)] at hterm
      obtain ⟨e, he, hte⟩ := Option.map_eq_some_iff.mp hterm
      have := hpos e (List.mem_of_getElem? he)
      omega
    rw [nextIndexAfterRejection, if_neg hnonzero]
    cases hscan : lastOfTerm reply.conflictTerm leader.log.entries.reverse with
    | none =>
      change agreement LH follower.log + 1 ≤ reply.conflictIndex
      by_contra hge
      have hrunA := hrun _ (by omega) hlt.le
      have hfirst_pos := hbeyond (by omega)
      rw [hF] at hrunA
      exact h.ordered.1.lastOfTerm_none hscan (k := agreement LH follower.log) (by omega)
        (hL.trans hrunA)
    | some next =>
      obtain ⟨k, rfl, _, _, hlater⟩ := h.owns.wf.numbered.lastOfTerm_some hscan
      change agreement LH follower.log + 1 ≤ k + 1
      by_contra hge
      have h₁ := hlater _ _ (by omega) hL
      have h₂ := h.ordered.2.termAt_le hbase hlt.le hF hterm
      omega

theorem Paired.request (h : Paired LH peer leader follower)
    (hb : leader.log.base < leader.nextIndex peer) :
    ∃ args, leader.outboundTo leader.currentTerm peer = some (.append peer args) ∧
      args.term = leader.currentTerm ∧ args.prevLogIndex + 1 = leader.nextIndex peer ∧
      leader.log.termAt args.prevLogIndex = some args.prevLogTerm ∧
      Consecutive args.prevLogIndex args.entries ∧
      args.prevLogIndex + args.entries.length = leader.log.lastLogIndex ∧
      ∀ e ∈ args.entries, leader.log.entryAt e.index = some e := by
  have hn := h.owns.wf.numbered
  have hlast := hn.lastLogIndex_eq
  have hnext := h.next_le
  obtain ⟨prevTerm, hterm, hout⟩ := outboundTo_of_next leader leader.currentTerm peer hn hb hnext
  have hdrop : Consecutive (leader.nextIndex peer - 1)
      (leader.log.entries.drop (leader.nextIndex peer - leader.log.base - 1)) := by
    have := Consecutive.drop hn (k := leader.nextIndex peer - leader.log.base - 1) (by omega)
    rwa [show leader.log.base + (leader.nextIndex peer - leader.log.base - 1) =
      leader.nextIndex peer - 1 by omega] at this
  refine ⟨_, hout, rfl, Nat.sub_add_cancel (by omega), hterm, hdrop, ?_, ?_⟩
  · change leader.nextIndex peer - 1 + (List.drop _ _).length = _
    rw [List.length_drop]
    omega
  · intro e he
    obtain ⟨m, hm⟩ := List.mem_iff_getElem?.mp he
    have hi := hdrop.index_eq hm
    rw [List.getElem?_drop] at hm
    rw [leader.log.entryAt_above (by omega), ← hm]
    congr 1
    omega

theorem Paired.no_conflict (h : Paired LH peer leader follower) {es : List LogEntry}
    (hes : ∀ e ∈ es, leader.log.base < e.index ∧ leader.log.entryAt e.index = some e) {i : ℕ}
    (hi : Conflicts follower.log es i) : follower.commitIndex < i := by
  obtain ⟨hb, hl, e, he, rfl, hne⟩ := hi
  by_contra hle
  have hagrees := (not_lt.mp hle).trans h.contained.commit_agrees
  obtain ⟨hbase, hentry⟩ := hes e he
  apply hne
  rw [h.contained.term_of_agrees hb.le hagrees,
    ← h.termAt hbase.le (hagrees.trans h.contained.agreement_le.2), RaftLog.termAt_eq, hentry]
  rfl

theorem Paired.agrees (h : Paired LH peer leader follower) {log : RaftLog}
    (hm : Merged follower.log log args.prevLogIndex args.entries)
    (hp : follower.PrevMatches args) (hb : leader.log.base ≤ args.prevLogIndex)
    (hprev : leader.log.termAt args.prevLogIndex = some args.prevLogTerm)
    (hc : Consecutive args.prevLogIndex args.entries)
    (hreach : args.prevLogIndex + args.entries.length = leader.log.lastLogIndex)
    (hes : ∀ e ∈ args.entries, leader.log.entryAt e.index = some e) :
    AgreesThrough leader.log log := by
  have hbase : log.base = follower.log.base := congrArg LogEntry.index hm.sentinel
  refine ⟨hreach ▸ hm.reach, fun i hL hF hi => ?_⟩
  rw [hbase] at hF
  by_cases hle : i ≤ args.prevLogIndex
  · rcases hp with hlt | ⟨hlast, hterm⟩
    · omega
    have hconf : ∀ k, Conflicts follower.log args.entries k → i < k := by
      rintro k ⟨_, _, e, he, rfl, _⟩
      have := (hc.index_bounds he).1
      omega
    rw [hm.kept i hF (by omega) hconf]
    exact (h.matching _ _ (by omega) (by omega) hprev hterm i hL hF hle).symm
  · have hk : i - args.prevLogIndex - 1 < args.entries.length := by omega
    have hget := List.getElem?_eq_getElem hk
    have hindex := hc.index_eq hget
    have hmem := List.mem_of_getElem? hget
    have hentry := hes _ hmem
    have htaken := hm.taken _ hmem (by omega)
    rw [hindex, show args.prevLogIndex + (i - args.prevLogIndex - 1) + 1 = i by omega] at hentry
    rw [hindex, show args.prevLogIndex + (i - args.prevLogIndex - 1) + 1 = i by omega] at htaken
    rcases htaken with heq | ⟨_, hterm, heq⟩
    · rw [heq, hentry]
    · have hLterm : leader.log.termAt i = some (args.entries[i - args.prevLogIndex - 1]).term := by
        rw [RaftLog.termAt_eq, hentry]
        rfl
      rw [heq]
      exact (h.matching i _ hL hF hLterm hterm i hL hF le_rfl).symm

theorem Paired.takes (h : Paired LH peer leader follower)
    (hterm : reply.term = leader.currentTerm) : leader.Takes leader.currentTerm reply.term :=
  ⟨h.running.1, h.leads, rfl, hterm.le⟩

theorem Paired.digests (h : Paired LH peer leader follower) (args : AppendEntriesArgs)
    (hterm : reply.term = leader.currentTerm) :
    ∃ leader', (leader.handleAppendEntriesReply peer leader.currentTerm args reply).result =
      .ok (leader', ()) := by
  have hcases := leader.handleAppendEntriesReply_cases peer leader.currentTerm args reply
  generalize leader.handleAppendEntriesReply peer leader.currentTerm args reply = o at hcases
  cases hcases with
  | ignored => exact ⟨_, rfl⟩
  | deposed hlt => exact absurd hlt (by omega)
  | confirmed => exact ⟨_, rfl⟩
  | rejected => exact ⟨_, rfl⟩
  | panicked hadv =>
    have hw := h.owns.wf
    obtain ⟨m, hm, _⟩ := @advanceCommitIndexLocked_cases _
      (leader.caughtUpTo peer (args.prevLogIndex + args.entries.length)) hw.numbered hw.base_le
    rw [hm] at hadv
    cases hadv

theorem Paired.heard (h : Paired LH peer leader follower) :
    Paired LH peer leader (follower.followerOf leader.currentTerm leader.id) := by
  constructor
  · exact h.leads
  · refine ⟨h.running.1, ?_⟩
    rw [followerOf, inTerm]
    split <;> exact h.running.2
  · change (follower.inTerm leader.currentTerm).currentTerm ≤ _
    rw [inTerm_currentTerm]
    exact Nat.max_le.mpr ⟨h.term_le, le_rfl⟩
  · exact h.next_le
  · exact h.whole
  · exact h.owns
  · exact h.contained.of_same (followerOf_log _ _ _) (followerOf_commitIndex _ _ _)
  · rw [followerOf_log]
    exact h.ordered
  · rw [followerOf_log]
    exact h.matching

theorem Paired.lowered (h : Paired LH peer leader follower) {next : ℕ}
    (hnext : next ≤ leader.nextIndex peer) :
    Paired LH peer { leader with nextIndex := Function.update leader.nextIndex peer next }
      follower := by
  obtain ⟨hleads, hrunning, hterm, hle, hwhole, howns, hcontained, hordered, hmatching⟩ := h
  refine ⟨hleads, hrunning, hterm, ?_, hwhole, howns.of_same rfl rfl, hcontained, hordered,
    hmatching⟩
  change Function.update leader.nextIndex peer next peer ≤ leader.log.lastLogIndex + 1
  rw [Function.update_self]
  omega

/-- The three ways an exchange can end. -/
theorem Paired.exchange_cases (h : Paired LH peer leader follower) :
    exchange peer leader follower = .ok .snapshot ∨
    (∃ l f, exchange peer leader follower = .ok (.accepted l f) ∧
      AgreesThrough leader.log f.log) ∨
    ∃ next, leader.log.base < leader.nextIndex peer ∧ next ≤ leader.nextIndex peer ∧
      (SharedTerms leader.log follower.log → next < leader.nextIndex peer) ∧
      ((∀ e ∈ follower.log.entries, 1 ≤ e.term) → leader.log.base = 0 →
        agreement LH follower.log + 1 ≤ next) ∧
      exchange peer leader follower = .ok (.rejected
        { leader with nextIndex := Function.update leader.nextIndex peer next }
        (follower.followerOf leader.currentTerm leader.id)) := by
  rw [exchange]
  by_cases hb : leader.nextIndex peer ≤ leader.log.base
  · left
    rw [outboundTo]
    dsimp only
    rw [if_pos hb]
  have hb := not_le.mp hb
  right
  have hf := h.heard
  obtain ⟨args, hout, hterm, hprev, hprevTerm, hc, hreach, hes⟩ := h.request hb
  have hid : args.leaderID = leader.id := (outboundTo_append hout).2.2.1
  have hnext := h.next_le
  have hlen := h.length
  have hcur := followerOf_currentTerm h.term_le leader.id
  have hacc := acceptEntries_outcome hf.contained.wf.numbered hc
  rw [hout]
  dsimp only
  rw [handleAppendEntries_eq, if_neg (by simp [h.running.2, hterm, h.term_le]), hterm, hid]
  generalize (follower.followerOf leader.currentTerm leader.id).acceptEntries args = o at hacc
  cases hacc with
  | rejected reply hp hs ht hhint =>
    right
    refine ⟨_, hb, Nat.min_le_left _ (nextIndexAfterRejection leader.log args.prevLogIndex reply),
      fun hshared => ?_, fun hpos hzero => ?_, ?_⟩
    · have hle := hf.next_le_prev (by rwa [followerOf_log]) hhint (by omega) (by omega) hprevTerm
      exact (Nat.min_le_right _ _).trans_lt (by omega)
    · have hprev_lt := hf.agreement_lt_prev hhint hzero (by omega) hprevTerm
      have hag := hf.agreement_lt_next (by rwa [followerOf_log]) hhint hzero (by omega) hprevTerm
      rw [followerOf_log] at hprev_lt hag
      exact Nat.le_min.mpr ⟨by omega, hag⟩
    · dsimp only [Outcome.after, Outcome.done]
      rw [handleAppendEntriesReply_rejected (h.takes (ht.trans hcur)) hs]
      simp [Outcome.done, hs]
  | merged log writes reply hp hs ht hm _ =>
    left
    obtain ⟨leader', hdigest⟩ := h.digests args (ht.trans hcur)
    dsimp only [Outcome.after, Outcome.done]
    rw [hdigest]
    dsimp only
    rw [if_pos hs]
    exact ⟨_, _, rfl, hf.agrees hm hp (by omega) hprevTerm hc hreach hes⟩
  | refused e i hp hi hle =>
    have hbelow := hf.no_conflict (fun e he => ⟨by
      have := (hc.index_bounds he).1
      omega, hes e he⟩) hi
    omega

theorem Paired.after_rejections (h : Paired LH peer leader follower)
    {pair : RaftNode D × RaftNode D}
    (hrun : Runs (rejection peer) Always (leader, follower) pair) :
    Paired LH peer pair.1 pair.2 ∧ pair.1.log = leader.log ∧ pair.2.log = follower.log := by
  induction hrun with
  | refl => exact ⟨h, rfl, rfl⟩
  | tail _ _ hstep ih =>
    obtain ⟨hp, hl, hf⟩ := ih
    rcases hp.exchange_cases with heq | ⟨_, _, heq, _⟩ | ⟨next, _, hle, _, _, heq⟩ <;>
      simp only [rejection, heq, Option.some.injEq, reduceCtorEq] at hstep
    subst hstep
    exact ⟨hp.heard.lowered hle, hl, (followerOf_log _ _ _).trans hf⟩

/-- If the logs share terms as entries of one leader do, every rejection lowers the next index to
at most the rejected predecessor, and the search ends with a success or at the boundary. If the
follower's entries have real terms, an uncompacted leader never goes below the first index that
may differ. -/
theorem backtracking_converges (h : Paired LH peer leader follower) :
    (∀ l f l' f', Runs (rejection peer) Always (leader, follower) (l, f) →
      exchange peer l f = .ok (.rejected l' f') →
      l.log.base < l.nextIndex peer ∧
        (SharedTerms leader.log follower.log → l'.nextIndex peer ≤ l.nextIndex peer - 1) ∧
        ((∀ e ∈ follower.log.entries, 1 ≤ e.term) → l.log.base = 0 →
          agreement LH f.log + 1 ≤ l'.nextIndex peer)) ∧
    (SharedTerms leader.log follower.log →
      ∃ l f, Runs (rejection peer) Always (leader, follower) (l, f) ∧
        (exchange peer l f = .ok .snapshot ∨
          ∃ l' f', exchange peer l f = .ok (.accepted l' f') ∧ AgreesThrough l.log f'.log)) := by
  constructor
  · intro l f l' f' hrun heq
    obtain ⟨hp, hl, hf⟩ := h.after_rejections hrun
    rcases hp.exchange_cases with hex | ⟨_, _, hex, _⟩ | ⟨next, hb, _, hlt, hfloor, hex⟩ <;>
      rw [hex] at heq <;> cases heq
    refine ⟨hb, fun hshared => ?_, fun hpos hzero => ?_⟩
    · change Function.update l.nextIndex peer next peer ≤ _
      rw [Function.update_self]
      exact Nat.le_sub_one_of_lt (hlt (by rwa [hl, hf]))
    · change _ ≤ Function.update l.nextIndex peer next peer
      rw [Function.update_self]
      exact hfloor (by rwa [hf]) hzero
  · -- the next index falls with every rejection
    intro hshared
    generalize hn : leader.nextIndex peer = n
    induction n using Nat.strong_induction_on generalizing leader follower with
    | _ n ih =>
      rcases h.exchange_cases with hex | ⟨l, f, hex, hag⟩ | ⟨next, _, hle, hlt, _, hex⟩
      · exact ⟨leader, follower, .refl, Or.inl hex⟩
      · exact ⟨leader, follower, .refl, Or.inr ⟨l, f, hex, hag⟩⟩
      · have hstep : rejection peer (leader, follower) () = some
            ({ leader with nextIndex := Function.update leader.nextIndex peer next },
              follower.followerOf leader.currentTerm leader.id) := by
          rw [rejection, hex]
        obtain ⟨l, f, hrun, hends⟩ := ih next (hn ▸ hlt hshared) (h.heard.lowered hle)
          (by rwa [followerOf_log]) (Function.update_self _ _ _)
        exact ⟨l, f, (Runs.refl.tail trivial hstep).trans hrun, hends⟩

def leaderWith (log : RaftLog) (commitIndex next : ℕ) : RaftNode Unit :=
  { followerWith 6 log commitIndex with
    cfg := ⟨"n1", ["n2", "n3"], 0, 0, 0, 0, 0⟩
    state := .leader
    leaderID := "n1"
    nextIndex := fun _ => next }

def heardWith (log : RaftLog) (commitIndex : ℕ) : RaftNode Unit :=
  { followerWith 6 log commitIndex with leaderID := "n1" }

theorem paired_with {L F : RaftLog} {LH : List LogEntry} {commitIndex next : ℕ}
    (hwhole : L.history LH = LH) (hnext : next ≤ L.lastLogIndex + 1)
    (howns : Contained LH (leaderWith L 0 next))
    (hcontained : Contained LH (heardWith F commitIndex))
    (hordered : L.Ordered ∧ F.Ordered) (hmatching : Matching L F) :
    Paired LH "n2" (leaderWith L 0 next) (heardWith F commitIndex) :=
  ⟨rfl, ⟨rfl, rfl⟩, le_rfl, hnext, hwhole, howns, hcontained, hordered, hmatching⟩

def divergentLeader : RaftLog := ⟨⟨0, 0, []⟩, [⟨1, 1, [1]⟩, ⟨3, 2, [2]⟩]⟩

def divergentFollower : RaftLog := ⟨⟨0, 0, []⟩, [⟨1, 1, [1]⟩, ⟨2, 2, [3]⟩, ⟨2, 3, [4]⟩]⟩

theorem divergent_paired :
    Paired divergentLeader.entries "n2" (leaderWith divergentLeader 0 3)
      (heardWith divergentFollower 1) := by
  refine paired_with rfl (by decide) ⟨⟨by decide, by decide, by decide⟩, rfl, by decide, rfl⟩
    ⟨⟨by decide, by decide, by decide⟩, rfl, by decide, rfl⟩ ⟨by decide, by decide⟩ ?_
  intro i t hb _ hL hF j hj _ hji
  rcases i with _ | _ | _ | i
  · cases hb
  · obtain rfl : j = 1 := by
      have : 0 < j := hj
      omega
    rfl
  · cases hL
    cases hF
  · cases hL

theorem divergent_shared : SharedTerms divergentLeader divergentFollower := by
  intro j k t hj _ hjk hk hF hL
  have hj : 0 < j := hj
  rcases k with _ | _ | _ | k
  · cases hk
  · obtain rfl : j = 1 := by omega
    cases hF
    rfl
  · rcases j with _ | _ | _ | j
    · cases hj
    · cases hF
      cases hL
    · cases hF
      cases hL
    · omega
  · cases hL

theorem backtracking_converges_divergent :
    (∃ l f, exchange "n2" (leaderWith divergentLeader 0 3) (heardWith divergentFollower 1) =
        .ok (.rejected l f) ∧ l.nextIndex "n2" = 2) ∧
      ∃ l f, Runs (rejection "n2") Always
          (leaderWith divergentLeader 0 3, heardWith divergentFollower 1) (l, f) ∧
        (exchange "n2" l f = .ok .snapshot ∨
          ∃ l' f', exchange "n2" l f = .ok (.accepted l' f') ∧ AgreesThrough l.log f'.log) := by
  obtain ⟨hlower, hends⟩ := backtracking_converges divergent_paired
  refine ⟨⟨_, _, rfl, ?_⟩, hends divergent_shared⟩
  obtain ⟨_, hle, hfloor⟩ := hlower _ _ _ _ .refl rfl
  exact Nat.le_antisymm (hle divergent_shared) (hfloor (by decide) rfl)

def spinningLeader : RaftLog := ⟨⟨0, 0, []⟩, [⟨1, 1, [1]⟩, ⟨2, 2, [2]⟩]⟩

def spinningFollower : RaftLog := ⟨⟨0, 0, []⟩, [⟨2, 1, [3]⟩]⟩

theorem spinning_paired :
    Paired spinningLeader.entries "n2" (leaderWith spinningLeader 0 2)
      (heardWith spinningFollower 0) := by
  refine paired_with rfl (by decide) ⟨⟨by decide, by decide, by decide⟩, rfl, by decide, rfl⟩
    ⟨⟨by decide, by decide, by decide⟩, rfl, by decide, rfl⟩ ⟨by decide, by decide⟩ ?_
  intro i t hb _ hL hF
  rcases i with _ | _ | i
  · cases hb
  · cases hL
    cases hF
  · cases hF

def zeroTermLeader : RaftLog := ⟨⟨0, 0, []⟩, [⟨0, 1, [1]⟩, ⟨0, 2, [2]⟩, ⟨1, 3, [3]⟩]⟩

def zeroTermFollower : RaftLog := ⟨⟨0, 0, []⟩, [⟨0, 1, [1]⟩, ⟨0, 2, [2]⟩, ⟨0, 3, [4]⟩]⟩

theorem zeroTerm_paired :
    Paired zeroTermLeader.entries "n2" (leaderWith zeroTermLeader 0 4)
      (heardWith zeroTermFollower 0) := by
  refine paired_with rfl (by decide) ⟨⟨by decide, by decide, by decide⟩, rfl, by decide, rfl⟩
    ⟨⟨by decide, by decide, by decide⟩, rfl, by decide, rfl⟩ ⟨by decide, by decide⟩ ?_
  intro i t hb _ hL hF j hj _ hji
  rcases i with _ | _ | _ | _ | i
  · cases hb
  · obtain rfl : j = 1 := Nat.le_antisymm hji hj
    rfl
  · rcases j with _ | _ | _ | j
    · cases hj
    · rfl
    · rfl
    · omega
  · cases hL
    cases hF
  · cases hL

theorem zeroTerm_shared : SharedTerms zeroTermLeader zeroTermFollower := by
  intro j k t hj _ hjk _ hF hL
  rcases k with _ | _ | _ | _ | k
  · cases hj.trans_le hjk
  · obtain rfl : j = 1 := Nat.le_antisymm hjk hj
    exact hF
  · rcases j with _ | _ | _ | j
    · cases hj
    · exact hF
    · exact hF
    · omega
  · rcases j with _ | _ | _ | _ | j
    · cases hj
    · cases hF
      cases hL
    · cases hF
      cases hL
    · cases hF
      cases hL
    · omega
  · cases hL

/-- Matching logs alone do not end the search: the hint may send the leader back to an entry of
the same term further on, for ever. And an entry of term 0 in the follower's log is mistaken for a
log that is too short, which throws away indices that agree. -/
theorem backtracking_spins :
    (Paired spinningLeader.entries "n2" (leaderWith spinningLeader 0 2)
        (heardWith spinningFollower 0) ∧
      (∀ e ∈ spinningFollower.entries, 1 ≤ e.term) ∧
      ∀ pair, Runs (rejection "n2") Always
          (leaderWith spinningLeader 0 2, heardWith spinningFollower 0) pair →
        exchange "n2" pair.1 pair.2 = .ok (.rejected pair.1 pair.2)) ∧
    Paired zeroTermLeader.entries "n2" (leaderWith zeroTermLeader 0 4)
        (heardWith zeroTermFollower 0) ∧
      SharedTerms zeroTermLeader zeroTermFollower ∧ zeroTermLeader.base = 0 ∧
      ∃ l f, exchange "n2" (leaderWith zeroTermLeader 0 4) (heardWith zeroTermFollower 0) =
          .ok (.rejected l f) ∧
        l.nextIndex "n2" < agreement zeroTermLeader.entries zeroTermFollower + 1 := by
  have hspin : exchange "n2" (leaderWith spinningLeader 0 2) (heardWith spinningFollower 0) =
      .ok (.rejected (leaderWith spinningLeader 0 2) (heardWith spinningFollower 0)) := rfl
  refine ⟨⟨spinning_paired, by decide, fun pair hrun => ?_⟩, zeroTerm_paired, zeroTerm_shared,
    rfl, _, _, rfl, by decide⟩
  suffices pair = (leaderWith spinningLeader 0 2, heardWith spinningFollower 0) by
    rw [this]
    exact hspin
  induction hrun with
  | refl => rfl
  | tail _ _ hstep ih =>
    subst ih
    rw [rejection, hspin] at hstep
    exact (Option.some.inj hstep).symm

end Exchange

end Raft
