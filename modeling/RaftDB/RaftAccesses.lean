import RaftDB.RaftFrames

/-!
# Positions in the log slice

Every position in the log slice is an unchecked difference of `uint64`. The accesses that a
section makes are listed here, section by section, each with the log it reads. An index panic of
a section is one of its accesses out of bounds. All accesses but those of a replication round are
guarded by the code, so that a well-formed log is enough for them; a round relies on the bounds
of `nextIndex`.
-/
namespace Raft

open Storage
open RaftNode hiding id

variable {σ D : Type}

/-- A translation of an index into a position of the slice: `log[i]`, `log[i:]`, `log[:i]`. -/
inductive Access where
  | slot (log : RaftLog) (index : ℕ)
  | tail (log : RaftLog) (start : ℕ)
  | head (log : RaftLog) (stop : ℕ)
  deriving DecidableEq, Repr

/-- The difference does not wrap around and lies within the slice. A cut keeps the sentinel. -/
def Access.InBounds : Access → Prop
  | .slot log index => log.base ≤ index ∧ index - log.base < log.slots.length
  | .tail log start => log.base ≤ start ∧ start - log.base ≤ log.slots.length
  | .head log stop => log.base < stop ∧ stop - log.base ≤ log.slots.length

instance : (x : Access) → Decidable x.InBounds
  | .slot log index =>
    inferInstanceAs (Decidable (log.base ≤ index ∧ index - log.base < log.slots.length))
  | .tail log start =>
    inferInstanceAs (Decidable (log.base ≤ start ∧ start - log.base ≤ log.slots.length))
  | .head log stop =>
    inferInstanceAs (Decidable (log.base < stop ∧ stop - log.base ≤ log.slots.length))

section Sections

namespace RaftNode

def outboundAccesses (rn : RaftNode D) (peer : NodeId) : List Access :=
  if rn.nextIndex peer ≤ rn.log.base then []
  else [.slot rn.log (rn.nextIndex peer - 1), .tail rn.log (rn.nextIndex peer)]

def replicationRoundAccesses (rn : RaftNode D) (term : ℕ) : List Access :=
  if rn.state ≠ .leader ∨ rn.currentTerm ≠ term then []
  else rn.peers.flatMap rn.outboundAccesses

def commitScanAccesses (rn : RaftNode D) : ℕ → List Access
  | 0 => []
  | n + 1 =>
    if n + 1 ≤ rn.commitIndex then []
    else .slot rn.log (n + 1) ::
      if rn.log.termAt (n + 1) ≠ some rn.currentTerm then []
      else if rn.replicatedOn (n + 1) ≥ rn.quorum then []
      else commitScanAccesses rn n

def advanceCommitIndexAccesses (rn : RaftNode D) : List Access :=
  if rn.state ≠ .leader then [] else rn.commitScanAccesses rn.log.lastLogIndex

def proposeAccesses (rn : RaftNode D) (command : List UInt8) : List Access :=
  if rn.state ≠ .leader then []
  else (rn.appendLogLocked
    [⟨rn.currentTerm, rn.log.lastLogIndex + 1, command⟩]).1.advanceCommitIndexAccesses

def firstOfTermAccesses (rn : RaftNode D) (term : ℕ) : ℕ → List Access
  | 0 => []
  | n + 1 =>
    if n + 1 > rn.log.base + 1 then
      .slot rn.log n ::
        if rn.log.termAt n = some term then firstOfTermAccesses rn term n else []
    else []

def consistencyCheckAccesses (rn : RaftNode D) (args : AppendEntriesArgs) : List Access :=
  if args.prevLogIndex > rn.log.lastLogIndex then []
  else if args.prevLogIndex ≥ rn.log.base then
    .slot rn.log args.prevLogIndex ::
      match rn.log.termAt args.prevLogIndex with
      | none => []
      | some term =>
        if term ≠ args.prevLogTerm then rn.firstOfTermAccesses term args.prevLogIndex else []
  else []

def appendWalkAccesses (rn : RaftNode D) : List LogEntry → List Access
  | [] => []
  | e :: rest =>
    if e.index ≤ rn.log.base then appendWalkAccesses rn rest
    else if e.index ≤ rn.log.lastLogIndex then
      .slot rn.log e.index ::
        if rn.log.termAt e.index = some e.term then appendWalkAccesses rn rest
        else if e.index ≤ rn.commitIndex then []
        else [.head rn.log e.index]
    else []

def acceptEntriesAccesses (rn : RaftNode D) (args : AppendEntriesArgs) : List Access :=
  rn.consistencyCheckAccesses args ++
    if rn.consistencyCheck args = .ok none then rn.appendWalkAccesses args.entries else []

def handleAppendEntriesAccesses (rn : RaftNode D) (args : AppendEntriesArgs) : List Access :=
  if rn.stopped ∨ args.term < rn.currentTerm then []
  else (rn.followerOf args.term args.leaderID).acceptEntriesAccesses args

def retainedSuffixAccesses (rn : RaftNode D) (index term : ℕ) : List Access :=
  if index ≤ rn.log.lastLogIndex ∧ index ≥ rn.log.base then
    .slot rn.log index ::
      if rn.log.termAt index = some term then [.tail rn.log (index + 1)] else []
  else []

def acceptSnapshotAccesses (rn : RaftNode D) (args : InstallSnapshotArgs D) : List Access :=
  if args.lastIncludedIndex ≤ rn.commitIndex then []
  else rn.retainedSuffixAccesses args.lastIncludedIndex args.lastIncludedTerm

def handleInstallSnapshotAccesses (rn : RaftNode D) (args : InstallSnapshotArgs D) :
    List Access :=
  if rn.stopped ∨ args.term < rn.currentTerm then []
  else (rn.followerOf args.term args.leaderID).acceptSnapshotAccesses args

def handleAppendEntriesReplyAccesses (rn : RaftNode D) (peer : NodeId) (term : ℕ)
    (args : AppendEntriesArgs) (reply : AppendEntriesReply) : List Access :=
  if rn.stopped ∨ reply.term > rn.currentTerm ∨ rn.state ≠ .leader ∨ rn.currentTerm ≠ term then []
  else if reply.success ∧ args.prevLogIndex + args.entries.length > rn.matchIndex peer then
    (rn.caughtUpTo peer
      (args.prevLogIndex + args.entries.length)).advanceCommitIndexAccesses
  else []

def compactLogAccesses (rn : RaftNode D) (index : ℕ) : List Access :=
  if index ≤ rn.log.base then []
  else if index < rn.log.lastLogIndex then [.tail rn.log (index + 1)] else []

end RaftNode

/-- The step is not one of the applier's own reads, those before it serializes the state machine. -/
def Proc.Translates (p : Proc σ D) (i : Input D) : Prop :=
  i = .applier → ∃ snapIndex snapTerm data, p.phase = .captured snapIndex snapTerm data

def Proc.accesses (p : Proc σ D) : Input D → List Access
  | .propose command => p.node.proposeAccesses command
  | .replicate term => p.node.replicationRoundAccesses term
  | .appendEntries args => p.node.handleAppendEntriesAccesses args
  | .installSnapshot args => p.node.handleInstallSnapshotAccesses args
  | .appendReply peer term args reply =>
    p.node.handleAppendEntriesReplyAccesses peer term args reply
  | .applier => match p.phase with
    | .captured snapIndex _ _ => p.node.compactLogAccesses snapIndex
    | _ => []
  | _ => []

end Sections

section OutOfRange

/-! Where the model panics for an index, an access of the list is out of bounds. -/

variable {log : RaftLog} {i : ℕ} {rn : RaftNode D}

theorem slot_of_none (h : log.termAt i = none) : ¬(Access.slot log i).InBounds := by
  intro ⟨hb, hl⟩
  rw [RaftLog.termAt, uint64Sub_of_le hb, List.getElem?_eq_getElem hl] at h
  cases h

theorem tail_of_none (h : log.entriesFrom i = none) : ¬(Access.tail log i).InBounds := by
  intro ⟨hb, hl⟩
  simp [RaftLog.entriesFrom, uint64Sub_of_le hb, hl] at h

def Exposed (xs : List Access) : Prop := ∃ x ∈ xs, ¬x.InBounds

theorem Exposed.head {x : Access} {xs : List Access} (h : ¬x.InBounds) : Exposed (x :: xs) :=
  ⟨x, List.mem_cons_self, h⟩

theorem Exposed.mono {xs ys : List Access} (h : Exposed xs) (hs : xs ⊆ ys) : Exposed ys := by
  obtain ⟨x, hx, hout⟩ := h
  exact ⟨x, hs hx, hout⟩

theorem Exposed.tail {x : Access} {xs : List Access} (h : Exposed xs) : Exposed (x :: xs) :=
  h.mono (List.subset_cons_self x xs)

namespace RaftNode

theorem outboundTo_exposed {term : ℕ} {peer : NodeId} (h : rn.outboundTo term peer = none) :
    Exposed (rn.outboundAccesses peer) := by
  rw [outboundTo] at h
  rw [outboundAccesses]
  dsimp only at h
  split at h
  · cases h
  rename_i hgt
  rw [if_neg hgt]
  cases hterm : rn.log.termAt (rn.nextIndex peer - 1) with
  | none => exact .head (slot_of_none hterm)
  | some t =>
    cases hfrom : rn.log.entriesFrom (rn.nextIndex peer) with
    | none => exact .tail (.head (tail_of_none hfrom))
    | some es => simp [hterm, hfrom] at h

theorem replicationRound_exposed {term : ℕ} {e : Panic}
    (h : rn.replicationRound term = .error e) : Exposed (rn.replicationRoundAccesses term) := by
  rw [replicationRound] at h
  rw [replicationRoundAccesses]
  split at h
  · cases h
  rename_i hlead
  rw [if_neg hlead]
  split at h
  · rename_i hmap
    obtain ⟨peer, hpeer, hnone⟩ := LogPrefix.exists_none_of_mapM hmap
    apply (outboundTo_exposed hnone).mono
    intro x hx
    exact List.mem_flatMap.mpr ⟨peer, hpeer, hx⟩
  · cases h

theorem commitScan_exposed {n : ℕ} {e : Panic} (h : rn.commitScan n = .error e) :
    Exposed (rn.commitScanAccesses n) := by
  induction n with
  | zero => cases h
  | succ n ih =>
    rw [commitScan] at h
    rw [commitScanAccesses]
    split at h
    · cases h
    rename_i hgt
    rw [if_neg hgt]
    split at h
    · rename_i hterm
      exact .head (slot_of_none hterm)
    rename_i t hterm
    split at h
    · cases h
    rename_i hsame
    split at h
    · cases h
    rename_i hfew
    rw [if_neg (by simpa [hterm] using hsame), if_neg hfew]
    exact .tail (ih h)

theorem advanceCommitIndexLocked_exposed {e : Panic}
    (h : rn.advanceCommitIndexLocked = .error e) : Exposed rn.advanceCommitIndexAccesses := by
  rw [advanceCommitIndexLocked] at h
  rw [advanceCommitIndexAccesses]
  split at h
  · cases h
  rename_i hlead
  rw [if_neg hlead]
  split at h
  · rename_i hscan
    exact commitScan_exposed hscan
  · cases h

theorem propose_exposed {command : List UInt8} {e : Panic}
    (h : (rn.propose command).result = .error e) : Exposed (rn.proposeAccesses command) := by
  rw [propose, proposeAt] at h
  rw [proposeAccesses]
  split at h
  · cases h
  rename_i hlead
  rw [if_neg hlead]
  dsimp only at h
  split at h
  · rename_i hadv
    exact advanceCommitIndexLocked_exposed hadv
  · cases h

theorem firstOfTerm_exposed {term n : ℕ} (h : rn.firstOfTerm term n = none) :
    Exposed (rn.firstOfTermAccesses term n) := by
  induction n with
  | zero => cases h
  | succ n ih =>
    rw [firstOfTerm] at h
    rw [firstOfTermAccesses]
    split at h
    · rename_i hgt
      rw [if_pos hgt]
      split at h
      · rename_i hterm
        exact .head (slot_of_none hterm)
      · rename_i t hterm
        split at h
        · rename_i heq
          rw [if_pos (by rw [hterm, heq])]
          exact .tail (ih h)
        · cases h
    · cases h

theorem consistencyCheck_exposed {args : AppendEntriesArgs} {e : Panic}
    (h : rn.consistencyCheck args = .error e) : Exposed (rn.consistencyCheckAccesses args) := by
  rw [consistencyCheck] at h
  rw [consistencyCheckAccesses]
  split at h
  · cases h
  rename_i hle
  rw [if_neg hle]
  split at h
  · rename_i hge
    rw [if_pos hge]
    cases hterm : rn.log.termAt args.prevLogIndex with
    | none => exact .head (slot_of_none hterm)
    | some t =>
      simp only [hterm] at h
      split at h
      · rename_i hne
        split at h
        · rename_i hscan
          simp only [if_pos hne]
          exact .tail (firstOfTerm_exposed hscan)
        · cases h
      · cases h
  · cases h

theorem truncateLogLocked_exposed {start : ℕ} {e : Panic}
    (h : (rn.truncateLogLocked start).result = .error e) :
    ¬(Access.head rn.log start).InBounds := by
  intro ⟨hb, hl⟩
  rw [truncateLogLocked, uint64Sub_of_le hb.le, if_pos ⟨by omega, hl⟩] at h
  cases h

theorem appendWalk_exposed {args : AppendEntriesArgs} {es : List LogEntry}
    (h : (rn.appendWalk args es).result = .error .indexOutOfRange) :
    Exposed (rn.appendWalkAccesses es) := by
  induction es with
  | nil => cases h
  | cons x xs ih =>
    rw [appendWalk] at h
    rw [appendWalkAccesses]
    split at h
    · rename_i hle
      rw [if_pos hle]
      exact ih h
    rename_i hgt
    rw [if_neg hgt]
    split at h
    · rename_i hl
      rw [if_pos hl]
      split at h
      · rename_i hterm
        exact .head (slot_of_none hterm)
      rename_i t hterm
      split at h
      · rename_i heq
        rw [if_pos (by rw [hterm, heq])]
        exact .tail (ih h)
      rename_i hne
      split at h
      · cases h
      rename_i hfree
      rw [if_neg (by simpa [hterm] using hne), if_neg hfree]
      dsimp only at h
      split at h
      · rename_i hcut
        exact .tail (.head (truncateLogLocked_exposed hcut))
      · cases h
    · cases h

theorem acceptEntries_exposed {args : AppendEntriesArgs}
    (h : (rn.acceptEntries args).result = .error .indexOutOfRange) :
    Exposed (rn.acceptEntriesAccesses args) := by
  rw [acceptEntries] at h
  rw [acceptEntriesAccesses]
  split at h
  · rename_i hcheck
    exact (consistencyCheck_exposed hcheck).mono (List.subset_append_left _ _)
  · cases h
  · rename_i hcheck
    dsimp only at h
    split at h
    · rename_i hwalk
      cases h
      rw [if_pos hcheck]
      exact (appendWalk_exposed hwalk).mono (List.subset_append_right _ _)
    · cases h

theorem handleAppendEntries_exposed {args : AppendEntriesArgs}
    (h : (rn.handleAppendEntries args).result = .error .indexOutOfRange) :
    Exposed (rn.handleAppendEntriesAccesses args) := by
  rw [handleAppendEntries_eq] at h
  rw [handleAppendEntriesAccesses]
  split at h
  · cases h
  · rename_i hcur
    rw [if_neg hcur]
    exact acceptEntries_exposed h

theorem handleInstallSnapshot_exposed {args : InstallSnapshotArgs D} {e : Panic}
    (h : (rn.handleInstallSnapshot args).result = .error e) :
    Exposed (rn.handleInstallSnapshotAccesses args) := by
  rw [handleInstallSnapshot_eq] at h
  rw [handleInstallSnapshotAccesses]
  split at h
  · cases h
  rename_i hcur
  rw [if_neg hcur, acceptSnapshotAccesses]
  replace h : ((rn.followerOf args.term args.leaderID).acceptSnapshot args).result = .error e := h
  rw [acceptSnapshot] at h
  dsimp only at h
  split at h
  · cases h
  rename_i hgt
  rw [if_neg hgt, retainedSuffixAccesses]
  split at h
  · rename_i hnone
    rw [retainedSuffix] at hnone
    split at hnone
    · rename_i hin
      rw [if_pos hin]
      split at hnone
      · rename_i hterm
        exact .head (slot_of_none hterm)
      · rename_i t hterm
        split at hnone
        · rename_i heq
          rw [if_pos (by rw [hterm, heq])]
          exact .tail (.head (tail_of_none hnone))
        · cases hnone
    · cases hnone
  · cases h

theorem handleAppendEntriesReply_exposed {peer : NodeId} {term : ℕ} {args : AppendEntriesArgs}
    {reply : AppendEntriesReply} {e : Panic}
    (h : (rn.handleAppendEntriesReply peer term args reply).result = .error e) :
    Exposed (rn.handleAppendEntriesReplyAccesses peer term args reply) := by
  rw [handleAppendEntriesReply] at h
  rw [handleAppendEntriesReplyAccesses]
  split at h
  · cases h
  rename_i hrun
  split at h
  · cases h
  rename_i hcur
  split at h
  · cases h
  rename_i hlead
  rw [if_neg (by simp_all)]
  split at h
  · rename_i hok
    dsimp only at h
    split at h
    · rename_i hgt
      rw [if_pos ⟨hok, hgt⟩]
      split at h
      · rename_i hadv
        exact advanceCommitIndexLocked_exposed hadv
      · cases h
    · cases h
  · dsimp only at h
    split at h <;> cases h

theorem compactLogLocked_exposed {index term : ℕ} {e : Panic}
    (h : (rn.compactLogLocked index term).result = .error e) :
    Exposed (rn.compactLogAccesses index) := by
  rw [compactLogLocked] at h
  rw [compactLogAccesses]
  split at h
  · cases h
  rename_i hgt
  rw [if_neg hgt]
  split at h
  · rename_i hnone
    split at hnone
    · rename_i hlt
      rw [if_pos hlt]
      exact .head (tail_of_none hnone)
    · cases hnone
  · cases h

end RaftNode

theorem Proc.locked_error {ρ : Type} {p : Proc σ D} {o : Outcome D ρ} {out : ρ → Output D}
    {e : Panic} (h : (p.locked o out).result = .error e) : o.result = .error e := by
  rw [locked] at h
  split at h
  · rename_i hres
    cases h
    exact hres
  · cases h

/-- An index panic in any of the sections is one of the listed accesses out of bounds. -/
theorem Proc.outOfRange_exposed {M : StateMachine σ D} {p : Proc σ D} {i : Input D}
    {o : StepOutcome σ D} (ho : p.handle M i = some o) (hi : p.Translates i)
    (h : o.result = .error .indexOutOfRange) : Exposed (p.accesses i) := by
  cases i with
  | start =>
    rw [handle, start] at ho
    split at ho
    · cases ho
    split at ho
    · cases ho
      cases h
    split at ho <;> cases ho
    cases h
  | stop =>
    cases ho
    cases h
  | electionTimeout =>
    rw [handle] at ho
    split at ho
    · cases ho
    cases ho
    have herr := locked_error h
    rw [startElectionLocked, startElectionIn] at herr
    dsimp only at herr
    split at herr <;> cases herr
  | propose command =>
    cases ho
    exact propose_exposed (locked_error h)
  | replicate term =>
    rw [handle] at ho
    split at ho
    · rename_i hround
      cases ho
      exact replicationRound_exposed hround
    · cases ho
      cases h
  | requestVote args =>
    cases ho
    have herr := locked_error h
    rw [handleRequestVote_eq] at herr
    split at herr
    · cases herr
    split at herr <;> cases herr
  | appendEntries args =>
    cases ho
    exact handleAppendEntries_exposed (locked_error h)
  | installSnapshot args =>
    cases ho
    exact handleInstallSnapshot_exposed (locked_error h)
  | voteReply term reply =>
    cases ho
    have herr := locked_error h
    have hcases := p.node.handleRequestVoteReply_cases term reply
    generalize p.node.handleRequestVoteReply term reply = o at herr hcases
    cases hcases <;> cases herr
  | appendReply peer term args reply =>
    cases ho
    exact handleAppendEntriesReply_exposed (locked_error h)
  | snapshotReply peer term args reply =>
    cases ho
    have herr := locked_error h
    have hcases := p.node.handleInstallSnapshotReply_cases peer term args reply
    generalize p.node.handleInstallSnapshotReply peer term args reply = o at herr hcases
    cases hcases <;> cases herr
  | applier =>
    obtain ⟨snapIndex, snapTerm, data, hphase⟩ := hi rfl
    rw [handle, applier, hphase] at ho
    cases ho
    rw [accesses, hphase]
    rw [saveCaptured] at h
    dsimp only at h
    split at h
    · cases h
    · have herr := locked_error h
      change (p.node.compactLogLocked snapIndex snapTerm).result = _ at herr
      exact compactLogLocked_exposed herr

end OutOfRange

section WellFormed

variable {log : RaftLog} {i : ℕ} {rn : RaftNode D}

theorem RaftLog.Numbered.slot (h : log.Numbered) (hb : log.base ≤ i) (hl : i ≤ log.lastLogIndex) :
    (Access.slot log i).InBounds := by
  rw [h.lastLogIndex_eq] at hl
  refine ⟨hb, ?_⟩
  simp [RaftLog.slots]
  omega

theorem RaftLog.Numbered.tail (h : log.Numbered) (hb : log.base ≤ i)
    (hl : i ≤ log.lastLogIndex + 1) : (Access.tail log i).InBounds := by
  rw [h.lastLogIndex_eq] at hl
  refine ⟨hb, ?_⟩
  simp [RaftLog.slots]
  omega

theorem RaftLog.Numbered.head (h : log.Numbered) (hb : log.base < i) (hl : i ≤ log.lastLogIndex) :
    (Access.head log i).InBounds := by
  rw [h.lastLogIndex_eq] at hl
  refine ⟨hb, ?_⟩
  simp [RaftLog.slots]
  omega

namespace RaftNode

theorem outboundAccesses_inBounds (hn : rn.log.Numbered) {peer : NodeId}
    (hnext : rn.nextIndex peer ≤ rn.log.lastLogIndex + 1) :
    ∀ x ∈ rn.outboundAccesses peer, x.InBounds := by
  rw [outboundAccesses]
  split
  · simp
  · simp only [List.mem_cons, List.not_mem_nil, or_false, forall_eq_or_imp, forall_eq]
    constructor
    · apply hn.slot <;> omega
    · apply hn.tail <;> omega

theorem commitScanAccesses_inBounds (hw : rn.Wf) {n : ℕ} (hl : n ≤ rn.log.lastLogIndex) :
    ∀ x ∈ rn.commitScanAccesses n, x.InBounds := by
  induction n with
  | zero => simp [commitScanAccesses]
  | succ n ih =>
    have hbase := hw.base_le
    rw [commitScanAccesses]
    split
    · simp
    · intro x hx
      rcases List.mem_cons.mp hx with rfl | hx
      · exact hw.numbered.slot (by omega) hl
      split at hx
      · simp at hx
      split at hx
      · simp at hx
      · exact ih (by omega) x hx

theorem advanceCommitIndexAccesses_inBounds (hw : rn.Wf) :
    ∀ x ∈ rn.advanceCommitIndexAccesses, x.InBounds := by
  rw [advanceCommitIndexAccesses]
  split
  · simp
  · exact commitScanAccesses_inBounds hw le_rfl

theorem proposeAccesses_inBounds (hw : rn.Wf) (command : List UInt8) :
    ∀ x ∈ rn.proposeAccesses command, x.InBounds := by
  rw [proposeAccesses]
  split
  · simp
  · apply advanceCommitIndexAccesses_inBounds
    have hc : Consecutive rn.log.lastLogIndex
        [⟨rn.currentTerm, rn.log.lastLogIndex + 1, command⟩] := ⟨rfl, trivial⟩
    have hn := hw.numbered.append hc
    refine ⟨hn, hw.base_le, ?_⟩
    have hcommit := hw.commit_le
    have hlast := hn.lastLogIndex_eq
    rw [hw.numbered.lastLogIndex_eq] at hcommit
    simp only [appendLogLocked, List.length_append] at hlast ⊢
    rw [hlast]
    exact hcommit.trans (by simp [RaftLog.base])

theorem firstOfTermAccesses_inBounds (hn : rn.log.Numbered) {term n : ℕ}
    (hl : n ≤ rn.log.lastLogIndex) : ∀ x ∈ rn.firstOfTermAccesses term n, x.InBounds := by
  induction n with
  | zero => simp [firstOfTermAccesses]
  | succ n ih =>
    rw [firstOfTermAccesses]
    split
    · intro x hx
      rcases List.mem_cons.mp hx with rfl | hx
      · apply hn.slot <;> omega
      split at hx
      · exact ih (by omega) x hx
      · simp at hx
    · simp

theorem consistencyCheckAccesses_inBounds (hn : rn.log.Numbered) (args : AppendEntriesArgs) :
    ∀ x ∈ rn.consistencyCheckAccesses args, x.InBounds := by
  rw [consistencyCheckAccesses]
  split
  · simp
  rename_i hle
  split
  · rename_i hge
    intro x hx
    rcases List.mem_cons.mp hx with rfl | hx
    · exact hn.slot hge (by omega)
    split at hx
    · simp at hx
    split at hx
    · exact firstOfTermAccesses_inBounds hn (by omega) x hx
    · simp at hx
  · simp

theorem appendWalkAccesses_inBounds (hn : rn.log.Numbered) (es : List LogEntry) :
    ∀ x ∈ rn.appendWalkAccesses es, x.InBounds := by
  induction es with
  | nil => simp [appendWalkAccesses]
  | cons e rest ih =>
    rw [appendWalkAccesses]
    split
    · exact ih
    rename_i hgt
    split
    · rename_i hl
      intro x hx
      rcases List.mem_cons.mp hx with rfl | hx
      · exact hn.slot (by omega) hl
      split at hx
      · exact ih x hx
      split at hx
      · simp at hx
      · rw [List.mem_singleton.mp hx]
        exact hn.head (by omega) hl
    · simp

theorem handleAppendEntriesAccesses_inBounds (hw : rn.Wf) (args : AppendEntriesArgs) :
    ∀ x ∈ rn.handleAppendEntriesAccesses args, x.InBounds := by
  rw [handleAppendEntriesAccesses]
  split
  · simp
  have hn : (rn.followerOf args.term args.leaderID).log.Numbered := by
    rw [followerOf_log]
    exact hw.numbered
  rw [acceptEntriesAccesses]
  intro x hx
  rcases List.mem_append.mp hx with hx | hx
  · exact consistencyCheckAccesses_inBounds hn args x hx
  split at hx
  · exact appendWalkAccesses_inBounds hn args.entries x hx
  · simp at hx

theorem handleInstallSnapshotAccesses_inBounds (hw : rn.Wf) (args : InstallSnapshotArgs D) :
    ∀ x ∈ rn.handleInstallSnapshotAccesses args, x.InBounds := by
  rw [handleInstallSnapshotAccesses]
  split
  · simp
  rw [acceptSnapshotAccesses]
  split
  · simp
  rw [retainedSuffixAccesses, followerOf_log]
  split
  · rename_i hin
    intro x hx
    rcases List.mem_cons.mp hx with rfl | hx
    · exact hw.numbered.slot hin.2 hin.1
    split at hx
    · rw [List.mem_singleton.mp hx]
      apply hw.numbered.tail <;> omega
    · simp at hx
  · simp

theorem handleAppendEntriesReplyAccesses_inBounds (hw : rn.Wf) (peer : NodeId) (term : ℕ)
    (args : AppendEntriesArgs) (reply : AppendEntriesReply) :
    ∀ x ∈ rn.handleAppendEntriesReplyAccesses peer term args reply, x.InBounds := by
  rw [handleAppendEntriesReplyAccesses]
  split
  · simp
  split
  · exact advanceCommitIndexAccesses_inBounds ⟨hw.numbered, hw.base_le, hw.commit_le⟩
  · simp

theorem compactLogAccesses_inBounds (hn : rn.log.Numbered) (index : ℕ) :
    ∀ x ∈ rn.compactLogAccesses index, x.InBounds := by
  rw [compactLogAccesses]
  split
  · simp
  split
  · simp only [List.mem_singleton, forall_eq]
    apply hn.tail <;> omega
  · simp

def InReach (rn : RaftNode D) : Prop :=
  rn.state = .leader → ∀ peer ∈ rn.peers, 1 ≤ rn.nextIndex peer ∧
    rn.nextIndex peer ≤ rn.log.lastLogIndex + 1 ∧ rn.matchIndex peer ≤ rn.log.lastLogIndex

theorem InReach.replicationRoundAccesses (h : rn.InReach) (hn : rn.log.Numbered) (term : ℕ) :
    ∀ x ∈ rn.replicationRoundAccesses term, x.InBounds := by
  rw [RaftNode.replicationRoundAccesses]
  split
  · simp
  rename_i hlead
  push Not at hlead
  intro x hx
  obtain ⟨peer, hpeer, hx⟩ := List.mem_flatMap.mp hx
  exact outboundAccesses_inBounds hn (h hlead.1 peer hpeer).2.1 x hx

end RaftNode

/-- In a well-formed node whose cursors are within bounds, every access is. -/
theorem Proc.accesses_inBounds {p : Proc σ D} (hw : p.node.Wf) (hr : p.node.InReach)
    (i : Input D) : ∀ x ∈ p.accesses i, x.InBounds := by
  cases i with
  | propose command => exact proposeAccesses_inBounds hw command
  | replicate term => exact hr.replicationRoundAccesses hw.numbered term
  | appendEntries args => exact handleAppendEntriesAccesses_inBounds hw args
  | installSnapshot args => exact handleInstallSnapshotAccesses_inBounds hw args
  | appendReply peer term args reply =>
    exact handleAppendEntriesReplyAccesses_inBounds hw peer term args reply
  | applier =>
    rw [accesses]
    split
    · exact compactLogAccesses_inBounds hw.numbered _
    · simp
  | _ => simp [accesses]

end WellFormed

end Raft
