import RaftDB.RaftCursorSteps
import RaftDB.RaftSite

/-!
# Votes across crashes

One node, its directory and any sequence of messages, crashes and restarts. Every hard state
that reaches the disk is recorded, and every candidate that the node has named for a term: by a
granted vote that it answered, or by standing itself. Hard states are ordered by term, then by
whether the vote is still open; each handler respects that order, so a term's vote is final.
The one step that does not is an election in the last term that a `uint64` can hold.
-/
namespace Raft

open Storage TransitionSystem
open RaftNode hiding id

variable {σ D ρ : Type} {M : StateMachine σ D} {cfg : Config}

/-- A later term, or the same term with the vote still open or unchanged. -/
def HardState.Precedes (x y : HardState) : Prop :=
  x.currentTerm < y.currentTerm ∨
    x.currentTerm = y.currentTerm ∧ (x.votedFor = None ∨ y.votedFor = x.votedFor)

instance (x y : HardState) : Decidable (x.Precedes y) :=
  inferInstanceAs (Decidable (_ ∨ _))

theorem HardState.Precedes.refl (x : HardState) : x.Precedes x := Or.inr ⟨rfl, Or.inr rfl⟩

theorem HardState.Precedes.trans {x y z : HardState} (h : x.Precedes y) (k : y.Precedes z) :
    x.Precedes z := by
  rcases h with hlt | ⟨heq, hvote⟩ <;> rcases k with klt | ⟨keq, kvote⟩
  · exact Or.inl (hlt.trans klt)
  · exact Or.inl (hlt.trans_eq keq)
  · exact Or.inl (heq.trans_lt klt)
  · refine Or.inr ⟨heq.trans keq, ?_⟩
    rcases hvote with hopen | hsame
    · exact Or.inl hopen
    · rw [← hsame]
      exact kvote

theorem HardState.Precedes.term_le {x y : HardState} (h : x.Precedes y) :
    x.currentTerm ≤ y.currentTerm := by
  rcases h with hlt | ⟨heq, _⟩
  · exact hlt.le
  · exact heq.le

theorem HardState.Precedes.vote_final {x y : HardState} (h : x.Precedes y)
    (hterm : x.currentTerm = y.currentTerm) (hvote : x.votedFor ≠ None) :
    y.votedFor = x.votedFor := by
  rcases h with hlt | ⟨_, hopen | hkept⟩
  · exact absurd hterm hlt.ne
  · exact absurd hopen hvote
  · exact hkept

def RaftNode.hardState (rn : RaftNode D) : HardState := ⟨rn.currentTerm, rn.votedFor⟩

def hardStates (ws : List (StoreWrite D)) : List HardState :=
  ws.filterMap fun
    | .saveHardState hs => some hs
    | _ => none

@[simp] theorem hardStates_append (ws ws' : List (StoreWrite D)) :
    hardStates (ws ++ ws') = hardStates ws ++ hardStates ws' :=
  List.filterMap_append

theorem hardStates_appendEntries (es : List LogEntry) :
    hardStates (appendEntries es : List (StoreWrite D)) = [] := by
  rw [hardStates, appendEntries, List.filterMap_map, List.filterMap_eq_nil_iff]
  intro e _
  rfl

theorem writeAll_hardState (disk : Disk D) (ws : List (StoreWrite D)) :
    (disk.writeAll ws).hardState = (hardStates ws).getLast?.or disk.hardState := by
  induction ws generalizing disk with
  | nil => rfl
  | cons w ws ih =>
    change ((disk.write w).writeAll ws).hardState = _
    rw [ih]
    cases w with
    | saveHardState hs =>
      change _ = (hs :: hardStates ws).getLast?.or _
      rw [List.getLast?_cons]
      cases (hardStates ws).getLast? <;> rfl
    | writeRecord r => rfl
    | saveSnapshot snap => rfl
    | compact es => rfl

section Sections

variable {rn rn' : RaftNode D} {o : Outcome D ρ} {B : ℕ}

/-- The section saves hard states in order, each of a term below `B`, and if it returns, the node
has the last one. -/
structure Outcome.Records (B : ℕ) (rn : RaftNode D) (o : Outcome D ρ) : Prop where
  order : (rn.hardState :: hardStates o.writes).Pairwise HardState.Precedes
  bounded : ∀ hs ∈ hardStates o.writes, hs.currentTerm < B
  last : ∀ x, o.result = .ok x →
    x.1.hardState = (hardStates o.writes).getLast?.getD rn.hardState

theorem Outcome.Records.quiet (hw : hardStates o.writes = [])
    (hr : ∀ x, o.result = .ok x → x.1.hardState = rn.hardState) : o.Records B rn := by
  refine ⟨?_, ?_, ?_⟩ <;> rw [hw]
  · exact List.pairwise_singleton _ _
  · rintro _ ⟨⟩
  · exact hr

theorem Outcome.Records.done (rn : RaftNode D) (r : ρ) : (Outcome.done rn [] r).Records B rn :=
  .quiet rfl (by rintro _ ⟨⟩; rfl)

theorem Outcome.Records.single (hs : HardState) (hw : hardStates o.writes = [hs])
    (hp : rn.hardState.Precedes hs) (hb : hs.currentTerm < B)
    (hr : ∀ x, o.result = .ok x → x.1.hardState = hs) : o.Records B rn := by
  refine ⟨?_, ?_, ?_⟩ <;> rw [hw]
  · exact List.pairwise_pair.mpr hp
  · intro x hx
    rw [List.mem_singleton.mp hx]
    exact hb
  · exact hr

theorem Outcome.Records.adopts (term : ℕ) (hb : term < B)
    (hw : hardStates o.writes = hardStates (rn.adoptWrites term))
    (hr : ∀ x, o.result = .ok x → x.1.hardState = (rn.inTerm term).hardState) :
    o.Records B rn := by
  by_cases hlt : rn.currentTerm < term
  · rw [adoptWrites, if_pos hlt] at hw
    rw [inTerm, if_pos hlt] at hr
    exact .single _ hw (Or.inl hlt) hb hr
  · rw [adoptWrites, if_neg hlt] at hw
    rw [inTerm, if_neg hlt] at hr
    exact .quiet hw hr

theorem deposed_records {term : ℕ} (hlt : rn.currentTerm < term) (hb : term < B) :
    (rn.deposed term).Records B rn := by
  have heq := rn.adoptTerm_eq term
  rw [adoptTerm, if_pos hlt] at heq
  rw [deposed, heq]
  exact .adopts _ hb rfl (by rintro _ ⟨⟩; rfl)

theorem handleRequestVote_records {args : RequestVoteArgs} (hb : args.term < B) :
    (rn.handleRequestVote args).Records B rn := by
  rw [handleRequestVote_eq]
  split
  · exact .done rn _
  rename_i hok
  push Not at hok
  split
  · rename_i hg
    by_cases hlt : rn.currentTerm < args.term
    · rw [inTerm, if_pos hlt, adoptWrites, if_pos hlt]
      have hmem : ∀ x ∈ [(⟨args.term, None⟩ : HardState), ⟨args.term, args.candidateID⟩],
          x.currentTerm = args.term := by
        intro x hx
        rcases List.mem_pair.mp hx with rfl | rfl <;> rfl
      refine ⟨List.pairwise_cons.mpr ⟨fun x hx => Or.inl (hlt.trans_eq (hmem x hx).symm),
        List.pairwise_pair.mpr (Or.inr ⟨rfl, Or.inl rfl⟩)⟩, fun x hx => ?_, by rintro _ ⟨⟩; rfl⟩
      exact (hmem x hx).trans_lt hb
    · rw [inTerm, if_neg hlt] at hg ⊢
      rw [adoptWrites, if_neg hlt]
      have hsame : rn.currentTerm = args.term := le_antisymm hok.2 (not_lt.mp hlt)
      refine .single ⟨args.term, args.candidateID⟩ rfl (Or.inr ⟨hsame, ?_⟩) hb ?_
      · exact hg.2.imp_right Eq.symm
      · rintro _ ⟨⟩
        rw [hardState, hsame]
  · exact .adopts _ hb rfl (by rintro _ ⟨⟩; rfl)

/-- A granted vote is the last hard state that its section saves. -/
theorem handleRequestVote_granted {args : RequestVoteArgs} {reply : RequestVoteReply}
    (h : (rn.handleRequestVote args).result = .ok (rn', reply)) (hg : reply.voteGranted = true) :
    reply.term = args.term ∧ (hardStates (rn.handleRequestVote args).writes).getLast? =
      some ⟨args.term, args.candidateID⟩ := by
  rw [handleRequestVote_eq] at h ⊢
  split at h
  · cases h
    cases hg
  rename_i hok
  split at h
  · rename_i hvote
    cases h
    rw [if_neg hok, if_pos hvote]
    refine ⟨rfl, ?_⟩
    change (hardStates (_ ++ _)).getLast? = _
    rw [hardStates_append]
    exact List.getLast?_concat
  · cases h
    cases hg

theorem truncateLogLocked_writes (rn : RaftNode D) (start : ℕ) :
    (rn.truncateLogLocked start).writes = truncateSuffix start := by
  rw [truncateLogLocked]
  split <;> rfl

theorem appendWalk_hardStates (rn : RaftNode D) (args : AppendEntriesArgs) (es : List LogEntry) :
    hardStates (rn.appendWalk args es).writes = [] := by
  induction es with
  | nil => rfl
  | cons e rest ih =>
    rw [appendWalk]
    split
    · exact ih
    split
    · split
      · rfl
      split
      · exact ih
      split
      · rfl
      dsimp only
      rw [truncateLogLocked_writes]
      split
      · rfl
      · change hardStates (truncateSuffix e.index ++ appendEntries (e :: rest)) = []
        rw [hardStates_append, hardStates_appendEntries]
        rfl
    · exact hardStates_appendEntries _

theorem acceptEntries_hardStates (rn : RaftNode D) (args : AppendEntriesArgs) :
    hardStates (rn.acceptEntries args).writes = [] := by
  rw [acceptEntries]
  split
  · rfl
  · rfl
  · dsimp only
    split <;> exact appendWalk_hardStates rn args args.entries

theorem acceptSnapshot_hardStates (rn : RaftNode D) (args : InstallSnapshotArgs D) :
    hardStates (rn.acceptSnapshot args).writes = [] := by
  rw [acceptSnapshot]
  dsimp only
  split
  · rfl
  split <;> rfl

theorem handleAppendEntries_records {args : AppendEntriesArgs} (hb : args.term < B) :
    (rn.handleAppendEntries args).Records B rn := by
  rw [handleAppendEntries_eq]
  split
  · exact .done rn _
  · refine .adopts args.term hb ?_ fun x hx => ?_
    · change hardStates (rn.adoptWrites args.term ++ _) = _
      rw [hardStates_append, acceptEntries_hardStates, List.append_nil]
    · obtain ⟨log, n, heq, _⟩ := acceptEntries_frame (Outcome.after_ok hx)
      rw [heq]
      rfl

theorem handleInstallSnapshot_records {args : InstallSnapshotArgs D}
    (hb : args.term < B) : (rn.handleInstallSnapshot args).Records B rn := by
  rw [handleInstallSnapshot_eq]
  split
  · exact .done rn _
  · refine .adopts args.term hb ?_ fun x hx => ?_
    · change hardStates (rn.adoptWrites args.term ++ _) = _
      rw [hardStates_append, acceptSnapshot_hardStates, List.append_nil]
    · obtain ⟨log, n, pending, heq, _⟩ := acceptSnapshot_frame (Outcome.after_ok hx)
      rw [heq]
      rfl

theorem handleRequestVoteReply_records {term : ℕ} {reply : RequestVoteReply}
    (hb : reply.term < B) : (rn.handleRequestVoteReply term reply).Records B rn := by
  have hcases := rn.handleRequestVoteReply_cases term reply
  generalize rn.handleRequestVoteReply term reply = o at hcases ⊢
  cases hcases with
  | ignored => exact .done rn _
  | deposed hlt => exact deposed_records hlt hb
  | counted | won => exact .quiet rfl (by rintro _ ⟨⟩; rfl)

theorem handleAppendEntriesReply_records {peer : NodeId} {term : ℕ} {args : AppendEntriesArgs}
    {reply : AppendEntriesReply} (hb : reply.term < B) :
    (rn.handleAppendEntriesReply peer term args reply).Records B rn := by
  have hcases := rn.handleAppendEntriesReply_cases peer term args reply
  generalize rn.handleAppendEntriesReply peer term args reply = o at hcases ⊢
  cases hcases with
  | ignored => exact .done rn _
  | deposed hlt => exact deposed_records hlt hb
  | confirmed _ _ _ hadv =>
    obtain ⟨n, rfl⟩ := advanceCommitIndexLocked_frame hadv
    exact .quiet rfl (by rintro _ ⟨⟩; rfl)
  | panicked => exact .quiet rfl (by rintro _ ⟨⟩)
  | rejected => exact .quiet rfl (by rintro _ ⟨⟩; rfl)

theorem handleInstallSnapshotReply_records {peer : NodeId} {term : ℕ}
    {args : InstallSnapshotArgs D} {reply : InstallSnapshotReply}
    (hb : reply.term < B) :
    (rn.handleInstallSnapshotReply peer term args reply).Records B rn := by
  have hcases := rn.handleInstallSnapshotReply_cases peer term args reply
  generalize rn.handleInstallSnapshotReply peer term args reply = o at hcases ⊢
  cases hcases with
  | ignored => exact .done rn _
  | deposed hlt => exact deposed_records hlt hb
  | caughtUp => exact .quiet rfl (by rintro _ ⟨⟩; rfl)

theorem proposeAt_records (rn : RaftNode D) (index : ℕ) (command : List UInt8) :
    (rn.proposeAt index command).Records B rn := by
  refine .quiet ?_ fun x hx => ?_
  · rw [proposeAt]
    split
    · rfl
    · dsimp only
      split <;> rfl
  · obtain ⟨log, n, heq, _⟩ := proposeAt_frame hx
    rw [heq]
    rfl

theorem compactLogLocked_hardStates (rn : RaftNode D) (index term : ℕ) :
    hardStates (rn.compactLogLocked index term).writes = [] := by
  rw [compactLogLocked]
  split
  · rfl
  · split <;> rfl

theorem startElectionIn_records {term : ℕ} (hlt : rn.currentTerm < term) (hb : term < B) :
    (rn.startElectionIn term).Records B rn := by
  rw [startElectionIn]
  dsimp only
  split <;>
  · refine .single ⟨term, rn.id⟩ rfl (Or.inl hlt) hb ?_
    rintro _ ⟨⟩
    rfl

theorem startElectionUint64_records (hb : rn.currentTerm < UInt64.size)
    (hnext : rn.currentTerm ≠ UInt64.size - 1) :
    rn.startElectionUint64.Records UInt64.size rn := by
  have hlt : rn.currentTerm + 1 < UInt64.size := by omega
  have hmod : (rn.currentTerm + 1) % UInt64.size = rn.currentTerm + 1 := Nat.mod_eq_of_lt hlt
  rw [startElectionUint64, hmod]
  exact startElectionIn_records (Nat.lt_succ_self _) hlt

end Sections

/-- Values that the fields can have: terms are `uint64`, those of requests below the largest,
and candidates have a name. -/
def Input.Uint64 : Input D → Prop
  | .requestVote args => args.term < UInt64.size - 1 ∧ args.candidateID ≠ None
  | .appendEntries args => args.term < UInt64.size - 1
  | .installSnapshot args => args.term < UInt64.size - 1
  | .voteReply _ reply => reply.term < UInt64.size
  | .appendReply _ _ _ reply => reply.term < UInt64.size
  | .snapshotReply _ _ _ reply => reply.term < UInt64.size
  | _ => True

def Input.TermBelow (B : ℕ) : Input D → Prop
  | .requestVote args => args.term < B
  | .appendEntries args => args.term < B
  | .installSnapshot args => args.term < B
  | .voteReply _ reply => reply.term < B
  | .appendReply _ _ _ reply => reply.term < B
  | .snapshotReply _ _ _ reply => reply.term < B
  | _ => True

theorem Input.Uint64.termBelow {i : Input D} (h : i.Uint64) : i.TermBelow UInt64.size := by
  have hpred : UInt64.size - 1 ≤ UInt64.size := Nat.sub_le _ _
  cases i with
  | requestVote args => exact h.1.trans_le hpred
  | appendEntries args | installSnapshot args => exact h.trans_le hpred
  | voteReply | appendReply | snapshotReply => exact h
  | _ => trivial

section Processes

variable {p : Proc σ D} {i : Input D} {o : StepOutcome σ D} {B : ℕ}

structure StepOutcome.Records (B : ℕ) (p : Proc σ D) (o : StepOutcome σ D) : Prop where
  order : (p.node.hardState :: hardStates o.writes).Pairwise HardState.Precedes
  bounded : ∀ hs ∈ hardStates o.writes, hs.currentTerm < B
  last : ∀ x, o.result = .ok x →
    x.1.node.hardState = (hardStates o.writes).getLast?.getD p.node.hardState

theorem Outcome.Records.locked {o : Outcome D ρ} (h : o.Records B p.node) (out : ρ → Output D) :
    (p.locked o out).Records B p := by
  rw [Proc.locked]
  split
  · exact ⟨h.order, h.bounded, by rintro _ ⟨⟩⟩
  · rename_i rn' r hres
    refine ⟨h.order, h.bounded, ?_⟩
    rintro _ ⟨⟩
    exact h.last _ hres

theorem StepOutcome.Records.quiet (hw : hardStates o.writes = [])
    (hr : ∀ x, o.result = .ok x → x.1.node.hardState = p.node.hardState) : o.Records B p := by
  refine ⟨?_, ?_, ?_⟩ <;> rw [hw]
  · exact List.pairwise_singleton _ _
  · rintro _ ⟨⟩
  · exact hr

theorem Proc.applier_hardStates (ho : p.applier M = some o) : hardStates o.writes = [] := by
  have hquiet : ∀ {q : Proc σ D} {x : Output D}, quietly q x = some o → hardStates o.writes = [] := by
    rintro q x ⟨⟩
    rfl
  have hfails : ∀ {e : Panic}, (fails e : Option (StepOutcome σ D)) = some o →
      hardStates o.writes = [] := by
    rintro e ⟨⟩
    rfl
  rw [Proc.applier] at ho
  split at ho
  · rw [applierWake] at ho
    dsimp only at ho
    split at ho
    · cases ho
    split at ho
    · split at ho <;> exact hquiet ho
    split at ho
    · cases ho
    split at ho
    · exact hfails ho
    · exact hquiet ho
  · split at ho
    · exact hfails ho
    · exact hquiet ho
  · exact hquiet ho
  · exact hquiet ho
  · dsimp only at ho
    split at ho
    · exact hfails ho
    · exact hquiet ho
  · split at ho
    · exact hfails ho
    · exact hquiet ho
  · cases ho
    rw [saveCaptured]
    dsimp only
    split
    · rfl
    · rw [Proc.locked_writes]
      change hardStates (_ ++ _) = []
      rw [hardStates_append, compactLogLocked_hardStates]
      rfl

theorem Proc.start_records (ho : p.start M = some o) : o.Records B p := by
  rw [Proc.start] at ho
  split at ho
  · cases ho
  split at ho
  · cases ho
    exact .quiet rfl (by rintro _ ⟨⟩; rfl)
  split at ho
  · cases ho
  · cases ho
    exact .quiet rfl (by rintro _ ⟨⟩; rfl)

theorem Proc.handle_records (hi : i.TermBelow B)
    (hb : i = .electionTimeout → p.node.currentTerm + 1 < B) (ho : p.handle M i = some o) : o.Records B p := by
  cases i with
  | electionTimeout =>
    rw [Proc.handle] at ho
    split at ho
    · cases ho
    · cases ho
      exact (startElectionIn_records (Nat.lt_succ_self _) (hb rfl)).locked _
  | start => exact Proc.start_records ho
  | stop =>
    cases ho
    exact .quiet rfl (by rintro _ ⟨⟩; rfl)
  | propose command =>
    cases ho
    exact (proposeAt_records p.node _ command).locked _
  | replicate term =>
    rw [Proc.handle] at ho
    split at ho <;> cases ho
    · exact .quiet rfl (by rintro _ ⟨⟩)
    · exact .quiet rfl (by rintro _ ⟨⟩; rfl)
  | requestVote args =>
    cases ho
    exact (handleRequestVote_records hi).locked _
  | appendEntries args =>
    cases ho
    exact (handleAppendEntries_records hi).locked _
  | installSnapshot args =>
    cases ho
    exact (handleInstallSnapshot_records hi).locked _
  | voteReply term reply =>
    cases ho
    exact (handleRequestVoteReply_records hi).locked _
  | appendReply peer term args reply =>
    cases ho
    exact (handleAppendEntriesReply_records hi).locked _
  | snapshotReply peer term args reply =>
    cases ho
    exact (handleInstallSnapshotReply_records hi).locked _
  | applier =>
    refine .quiet (Proc.applier_hardStates ho) fun x hx => ?_
    obtain ⟨log, applied, pending, heq⟩ := Proc.applier_frame ho hx
    rw [heq]
    rfl

theorem Input.exists_termBelow (i : Input D) (n : ℕ) : ∃ B, n < B ∧ i.TermBelow B := by
  cases i with
  | requestVote args | appendEntries args | installSnapshot args =>
    refine ⟨n + args.term + 1, by omega, ?_⟩
    rw [TermBelow]
    omega
  | voteReply _ reply | appendReply _ _ _ reply | snapshotReply _ _ _ reply =>
    refine ⟨n + reply.term + 1, by omega, ?_⟩
    rw [TermBelow]
    omega
  | _ => exact ⟨n + 1, Nat.lt_succ_self n, trivial⟩

/-- Whatever a step saves and leaves in memory follows the hard state before. -/
theorem Proc.handle_recorded (ho : p.handle M i = some o) : ∃ B, o.Records B p := by
  obtain ⟨B, hb, hi⟩ := i.exists_termBelow (p.node.currentTerm + 1)
  exact ⟨B, Proc.handle_records hi (fun _ => hb) ho⟩

theorem StepOutcome.Records.precedes (h : o.Records B p) {x : Proc σ D × Output D}
    (hx : o.result = .ok x) : p.node.hardState.Precedes x.1.node.hardState := by
  rw [h.last x hx]
  cases hl : (hardStates o.writes).getLast? with
  | none => exact .refl _
  | some hs => exact (List.pairwise_cons.mp h.order).1 hs (List.mem_of_getLast? hl)

theorem Proc.handleUint64_records (hi : i.Uint64) (hb : p.node.currentTerm < UInt64.size)
    (hnext : i = .electionTimeout → p.node.currentTerm ≠ UInt64.size - 1)
    (ho : p.handleUint64 M i = some o) : o.Records UInt64.size p := by
  cases i with
  | electionTimeout =>
    rw [Proc.handleUint64] at ho
    split at ho
    · cases ho
    · cases ho
      exact (startElectionUint64_records hb (hnext rfl)).locked _
  | propose command =>
    cases ho
    exact (proposeAt_records p.node _ command).locked _
  | _ => exact Proc.handle_records (M := M) hi.termBelow (by rintro ⟨⟩) ho

end Processes

/-- The candidate that a step names for a term: by a granted vote, or by standing itself. -/
def Input.named (i : Input D) (p' : Proc σ D) (out : Output D) : List (ℕ × NodeId) :=
  match i, out with
  | .requestVote args, .voteReply reply =>
    if reply.voteGranted then [(reply.term, args.candidateID)] else []
  | .electionTimeout, _ => [(p'.node.currentTerm, p'.node.id)]
  | _, _ => []

/-- A node with its directory, the hard states that have reached the disk, and the candidates
that it has named. -/
structure Voter (σ D : Type) where
  site : Site σ D
  saved : List HardState
  named : List (ℕ × NodeId)

def Voter.init : Voter σ D := ⟨Site.init, [], []⟩

def Voter.step (M : StateMachine σ D) (cfg : Config) (v : Voter σ D) :
    SiteEvent D → Option (Voter σ D)
  | .boot =>
    match v.site.proc, newNodeUint64 cfg v.site.disk with
    | none, .ok rn => some { v with site := ⟨v.site.disk, some (Proc.boot M rn)⟩ }
    | _, _ => none
  | .input i =>
    match v.site.proc with
    | none => none
    | some p =>
      match p.handleUint64 M i with
      | none => none
      | some o =>
        let disk := v.site.disk.writeAll o.writes
        let saved := v.saved ++ hardStates o.writes
        match o.result with
        | .error _ => some ⟨⟨disk, none⟩, saved, v.named⟩
        | .ok (p', out) => some ⟨⟨disk, some p'⟩, saved, v.named ++ i.named p' out⟩
  | .crash =>
    match v.site.proc with
    | none => none
    | some _ => some { v with site := ⟨v.site.disk, none⟩ }
  | .crashDuring i written =>
    match v.site.proc with
    | none => none
    | some p =>
      match p.handleUint64 M i with
      | none => none
      | some o =>
        let ws := o.writes.take written
        some ⟨⟨v.site.disk.writeAll ws, none⟩, v.saved ++ hardStates ws, v.named⟩

def Typed (_ : Voter σ D) (e : SiteEvent D) : Prop := ∀ i ∈ e.work, i.Uint64

/-- No election starts in the last term. -/
def NoWrap (v : Voter σ D) (e : SiteEvent D) : Prop :=
  e.work = some .electionTimeout → ∀ p ∈ v.site.proc, p.node.currentTerm ≠ UInt64.size - 1

section Invariant

variable {v v' : Voter σ D} {p : Proc σ D} {e : SiteEvent D} {o : StepOutcome σ D}

structure Voter.Faithful (cfg : Config) (v : Voter σ D) : Prop where
  disk : v.site.disk.hardState = v.saved.getLast?
  order : v.saved.Pairwise HardState.Precedes
  bounded : ∀ hs ∈ v.saved, hs.currentTerm < UInt64.size
  live : ∀ {p}, v.site.proc = some p → p.node.hardState = v.saved.getLast?.getD ⟨0, None⟩ ∧
    p.node.cfg = cfg.withDefaults ∧ cfg.id ≠ ""
  named : ∀ x ∈ v.named, x.2 ≠ None ∧ (⟨x.1, x.2⟩ : HardState) ∈ v.saved

theorem Voter.Faithful.term_lt (h : v.Faithful cfg) (hp : v.site.proc = some p) :
    p.node.currentTerm < UInt64.size := by
  have hlive := congrArg HardState.currentTerm (h.live hp).1
  rw [show p.node.currentTerm = _ from hlive]
  cases hl : v.saved.getLast? with
  | none => decide
  | some hs => exact h.bounded hs (List.mem_of_getLast? hl)

theorem precedes_last {l : List HardState} (h : l.Pairwise HardState.Precedes) {x y : HardState}
    (hx : x ∈ l) (hy : l.getLast? = some y) : x.Precedes y := by
  obtain ⟨ys, rfl⟩ := List.getLast?_eq_some_iff.mp hy
  rcases List.mem_append.mp hx with hx | hx
  · exact (List.pairwise_append.mp h).2.2 x hx y (List.mem_singleton_self y)
  · rw [List.mem_singleton.mp hx]
    exact .refl y

theorem Voter.Faithful.extend (h : v.Faithful cfg) (hp : v.site.proc = some p)
    (ho : o.Records UInt64.size p) {hs : List HardState} (hpre : hs <+: hardStates o.writes) :
    (v.saved ++ hs).Pairwise HardState.Precedes ∧
      ∀ x ∈ v.saved ++ hs, x.currentTerm < UInt64.size := by
  obtain ⟨hhead, htail⟩ := List.pairwise_cons.mp ho.order
  constructor
  · refine List.pairwise_append.mpr ⟨h.order, htail.sublist hpre.sublist, fun x hx y hy => ?_⟩
    obtain ⟨z, hz⟩ : ∃ z, v.saved.getLast? = some z :=
      Option.isSome_iff_exists.mp (by simpa using List.ne_nil_of_mem hx)
    have hnode := (h.live hp).1
    rw [hz, Option.getD_some] at hnode
    refine (precedes_last h.order hx hz).trans ?_
    rw [← hnode]
    exact hhead y (hpre.subset hy)
  · intro x hx
    rcases List.mem_append.mp hx with hx | hx
    · exact h.bounded x hx
    · exact ho.bounded x (hpre.subset hx)

/-- Whoever a step names has just been recorded as the vote of the term. -/
theorem named_recorded {i : Input D} {p' : Proc σ D} {out : Output D} (hi : i.Uint64)
    (ho : p.handleUint64 M i = some o) (hres : o.result = .ok (p', out)) (hid : p.node.id ≠ "")
    {x : ℕ × NodeId} (hx : x ∈ i.named p' out) :
    x.2 ≠ None ∧ (⟨x.1, x.2⟩ : HardState) ∈ hardStates o.writes := by
  unfold Input.named at hx
  split at hx
  · rename_i args reply
    cases ho
    obtain ⟨rn', r, hhandler, _, hreply⟩ := Proc.locked_ok hres
    cases hreply
    split at hx
    · rename_i hgrant
      obtain ⟨hterm, hlast⟩ := handleRequestVote_granted hhandler hgrant
      rw [List.mem_singleton.mp hx, Proc.locked_writes, hterm]
      exact ⟨hi.2, List.mem_of_getLast? hlast⟩
    · cases hx
  · rw [Proc.handleUint64] at ho
    split at ho
    · cases ho
    cases ho
    obtain ⟨rn', r, hhandler, rfl, _⟩ := Proc.locked_ok hres
    rw [List.mem_singleton.mp hx, Proc.locked_writes]
    rw [startElectionUint64, startElectionIn] at hhandler ⊢
    dsimp only at hhandler ⊢
    split at hhandler
    · rename_i hq
      cases hhandler
      rw [if_pos hq]
      exact ⟨hid, List.mem_singleton_self _⟩
    · rename_i hq
      cases hhandler
      rw [if_neg hq]
      exact ⟨hid, List.mem_singleton_self _⟩
  · cases hx

theorem newNodeFrom_recalls {hs : Option HardState} {snap : Option (Snapshot D)}
    {load : Except LoadError (List LogEntry)}
    {recover : ℕ → List LogEntry → Except NewNodeError (List LogEntry)} {rn : RaftNode D}
    (h : newNodeFrom cfg hs snap load recover = .ok rn) :
    rn.hardState = hs.getD ⟨0, None⟩ ∧ rn.cfg = cfg.withDefaults ∧ cfg.id ≠ "" := by
  obtain ⟨hcheck, _, _, _, _, rfl⟩ := newNodeFrom_ok.mp h
  refine ⟨rfl, rfl, fun hempty => ?_⟩
  rw [checkConfig, if_pos (show cfg.withDefaults.id = "" from hempty)] at hcheck
  cases hcheck

theorem Proc.handleUint64_cfg {i : Input D} {p' : Proc σ D} {out : Output D}
    (ho : p.handleUint64 M i = some o) (hres : o.result = .ok (p', out)) :
    p'.node.cfg = p.node.cfg := by
  cases i with
  | electionTimeout =>
    rw [Proc.handleUint64] at ho
    split at ho
    · cases ho
    cases ho
    obtain ⟨rn', r, hhandler, rfl, _⟩ := Proc.locked_ok hres
    rw [startElectionUint64, startElectionIn] at hhandler
    dsimp only at hhandler
    split at hhandler <;> cases hhandler <;> rfl
  | propose command =>
    cases ho
    obtain ⟨rn', r, hhandler, rfl, _⟩ := Proc.locked_ok hres
    obtain ⟨log, n, rfl, _⟩ := proposeAt_frame hhandler
    rfl
  | _ =>
    simp only [Proc.handleUint64] at ho
    exact (p.handled ho hres).cursors.1

theorem Voter.Faithful.init : (Voter.init : Voter σ D).Faithful cfg :=
  ⟨rfl, .nil, by rintro _ ⟨⟩, by rintro _ ⟨⟩, by rintro _ ⟨⟩⟩

theorem Voter.Faithful.dies (h : v.Faithful cfg) (hp : v.site.proc = some p) (ho : o.Records UInt64.size p)
    {ws : List (StoreWrite D)} (hpre : ws <+: o.writes) :
    Voter.Faithful cfg (⟨⟨v.site.disk.writeAll ws, none⟩, v.saved ++ hardStates ws, v.named⟩ :
      Voter σ D) := by
  obtain ⟨horder, hbounded⟩ := h.extend hp ho (hpre.filterMap _)
  refine ⟨?_, horder, hbounded, by rintro _ ⟨⟩, fun x hx => ?_⟩
  · rw [writeAll_hardState, List.getLast?_append, h.disk]
  · exact ⟨(h.named x hx).1, List.mem_append_left _ (h.named x hx).2⟩

theorem Voter.Faithful.step (h : v.Faithful cfg) (htyped : Typed v e) (hwrap : NoWrap v e)
    (hst : v.step M cfg e = some v') : v'.Faithful cfg := by
  cases e with
  | boot =>
    simp only [Voter.step] at hst
    split at hst
    · rename_i rn _ hrn
      cases hst
      obtain ⟨hhs, hcfg, hid⟩ := newNodeFrom_recalls hrn
      refine ⟨h.disk, h.order, h.bounded, ?_, h.named⟩
      rintro _ ⟨⟩
      rw [← h.disk]
      exact ⟨hhs, hcfg, hid⟩
    · cases hst
  | crash =>
    simp only [Voter.step] at hst
    split at hst
    · cases hst
    · cases hst
      exact ⟨h.disk, h.order, h.bounded, by rintro _ ⟨⟩, h.named⟩
  | crashDuring i written =>
    simp only [Voter.step] at hst
    split at hst
    · cases hst
    rename_i p hp
    split at hst
    · cases hst
    rename_i o ho
    cases hst
    have hrec := p.handleUint64_records (htyped i rfl) (h.term_lt hp)
      (fun hi => hwrap (congrArg some hi) p hp) ho
    exact h.dies hp hrec (List.take_prefix _ _)
  | input i =>
    simp only [Voter.step] at hst
    split at hst
    · cases hst
    rename_i p hp
    split at hst
    · cases hst
    rename_i o ho
    have hrec := p.handleUint64_records (htyped i rfl) (h.term_lt hp)
      (fun hi => hwrap (congrArg some hi) p hp) ho
    split at hst
    · cases hst
      exact h.dies hp hrec (List.prefix_refl _)
    · rename_i p' out hres
      cases hst
      obtain ⟨hnode, hcfg, hid⟩ := h.live hp
      obtain ⟨hdisk, horder, hbounded, _, hold⟩ := h.dies hp hrec (List.prefix_refl _)
      refine ⟨hdisk, horder, hbounded, ?_, fun x hx => ?_⟩
      · rintro _ ⟨⟩
        refine ⟨?_, (p.handleUint64_cfg ho hres).trans hcfg, hid⟩
        rw [hrec.last _ hres, hnode, List.getLast?_append]
        cases (hardStates o.writes).getLast? <;> rfl
      · rcases List.mem_append.mp hx with hx | hx
        · exact hold x hx
        · have hname : p.node.id ≠ "" := by
            rw [RaftNode.id, hcfg]
            exact hid
          obtain ⟨hne, hmem⟩ := named_recorded (htyped i rfl) ho hres hname hx
          exact ⟨hne, List.mem_append_right _ hmem⟩

theorem vote_unique {l : List HardState} (h : l.Pairwise HardState.Precedes) {T : ℕ}
    {x y : NodeId} (hx : (⟨T, x⟩ : HardState) ∈ l) (hy : (⟨T, y⟩ : HardState) ∈ l)
    (hnx : x ≠ None) (hny : y ≠ None) : x = y := by
  have hforth : l.Pairwise fun a b => a.currentTerm = b.currentTerm → a.votedFor ≠ None →
      b.votedFor ≠ None → a.votedFor = b.votedFor :=
    h.imp fun hab heq ha _ => (hab.vote_final heq ha).symm
  have hback : l.Pairwise fun a b => b.currentTerm = a.currentTerm → b.votedFor ≠ None →
      a.votedFor ≠ None → b.votedFor = a.votedFor :=
    h.imp fun hab heq _ ha => hab.vote_final heq.symm ha
  exact hforth.forall_of_forall_of_flip (fun _ _ _ _ _ => rfl) hback hx hy rfl hnx hny

theorem Voter.faithful_of_runs
    (h : Runs (Voter.step M cfg) (fun v e => Typed v e ∧ NoWrap v e) Voter.init v) :
    v.Faithful cfg :=
  h.invariant Voter.Faithful.init fun _ _ _ hv hok hst => hv.step hok.1 hok.2 hst

end Invariant

/-- If no election starts in the last term of a `uint64`, the saved terms never decrease, the
saved vote of a term is final once it is cast, and all that a node ever names for one term is
one candidate. -/
theorem votes_never_change (M : StateMachine σ D) (cfg : Config) {v : Voter σ D}
    (hrun : Runs (Voter.step M cfg) (fun v e => Typed v e ∧ NoWrap v e) Voter.init v) :
    (v.saved.Pairwise fun x y => x.currentTerm ≤ y.currentTerm ∧
      (x.currentTerm = y.currentTerm → x.votedFor ≠ None → y.votedFor = x.votedFor)) ∧
    v.site.disk.hardState = v.saved.getLast? ∧
    ∀ T c c', (T, c) ∈ v.named → (T, c') ∈ v.named → c = c' := by
  have h := Voter.faithful_of_runs hrun
  refine ⟨h.order.imp fun hxy => ⟨hxy.term_le, hxy.vote_final⟩, h.disk, ?_⟩
  intro T c c' hc hc'
  obtain ⟨hne, hmem⟩ := h.named _ hc
  obtain ⟨hne', hmem'⟩ := h.named _ hc'
  exact vote_unique h.order hmem hmem' hne hne'

section Schedules

instance : (i : Input D) → Decidable i.Uint64
  | .requestVote _ => inferInstanceAs (Decidable (_ ∧ _))
  | .appendEntries _ | .installSnapshot _ => inferInstanceAs (Decidable (_ < _))
  | .voteReply _ _ | .appendReply _ _ _ _ | .snapshotReply _ _ _ _ =>
    inferInstanceAs (Decidable (_ < _))
  | .start | .stop | .electionTimeout | .propose _ | .replicate _ | .applier => .isTrue trivial

instance (v : Voter σ D) (e : SiteEvent D) : Decidable (Typed v e) :=
  inferInstanceAs (Decidable (∀ i ∈ e.work, i.Uint64))

instance [DecidableEq D] (v : Voter σ D) (e : SiteEvent D) : Decidable (NoWrap v e) :=
  inferInstanceAs (Decidable (_ → ∀ p ∈ v.site.proc, p.node.currentTerm ≠ UInt64.size - 1))

/-- The member grants its vote of term 1 and restarts; a second candidate of that term is
refused. It crashes between the two writes for a vote in term 2, stands in term 3 and refuses
another candidate there. -/
def votesAcrossCrashes : List (SiteEvent (List LogEntry)) :=
  [.boot, .input (.requestVote ⟨1, "n2", 0, 0⟩), .crash, .boot,
    .input (.requestVote ⟨1, "n3", 0, 0⟩), .crashDuring (.requestVote ⟨2, "n3", 0, 0⟩) 1, .boot,
    .input .start, .input .electionTimeout, .input (.requestVote ⟨3, "n2", 0, 0⟩)]

theorem votes_never_change_across_crashes :
    ∃ v, exec (Voter.step recorder ⟨"n1", ["n2", "n3"], 0, 0, 0, 0, 0⟩)
        (fun v e => decide (Typed v e ∧ NoWrap v e)) Voter.init votesAcrossCrashes = some v ∧
      v.saved = [⟨1, ""⟩, ⟨1, "n2"⟩, ⟨2, ""⟩, ⟨3, "n1"⟩] ∧ v.named = [(1, "n2"), (3, "n1")] ∧
      (v.saved.Pairwise fun x y => x.currentTerm ≤ y.currentTerm ∧
        (x.currentTerm = y.currentTerm → x.votedFor ≠ None → y.votedFor = x.votedFor)) ∧
      v.site.disk.hardState = v.saved.getLast? ∧
      ∀ T c c', (T, c) ∈ v.named → (T, c') ∈ v.named → c = c' := by
  have hrun : (exec (Voter.step recorder ⟨"n1", ["n2", "n3"], 0, 0, 0, 0, 0⟩)
      (fun v e => decide (Typed v e ∧ NoWrap v e)) Voter.init votesAcrossCrashes).map
      (fun v => (v.saved, v.named)) =
      some ([⟨1, ""⟩, ⟨1, "n2"⟩, ⟨2, ""⟩, ⟨3, "n1"⟩], [(1, "n2"), (3, "n1")]) := by decide +kernel
  obtain ⟨v, hv, hpair⟩ := Option.map_eq_some_iff.mp hrun
  obtain ⟨hsaved, hnamed⟩ := Prod.mk.inj hpair
  exact ⟨v, hv, hsaved, hnamed, votes_never_change recorder _
    (runs_of_exec (fun _ _ h => of_decide_eq_true h) _ hv)⟩

/-- A request of term `2^64 - 2` and two election timeouts: the term wraps around, and the next
restart begins in term 0. -/
theorem saved_term_wraps :
    ∃ v, Runs (Voter.step recorder ⟨"n1", ["n2", "n3"], 0, 0, 0, 0, 0⟩) Typed Voter.init v ∧
      v.saved = [⟨UInt64.size - 2, ""⟩, ⟨UInt64.size - 1, "n1"⟩, ⟨0, "n1"⟩] ∧
      ¬v.saved.Pairwise fun x y => x.currentTerm ≤ y.currentTerm := by
  have hrun : (exec (Voter.step recorder ⟨"n1", ["n2", "n3"], 0, 0, 0, 0, 0⟩)
      (fun v e => decide (Typed v e)) Voter.init
      [.boot, .input .start, .input (.appendEntries ⟨UInt64.size - 2, "n2", 0, 0, [], 0⟩),
        .input .electionTimeout, .input .electionTimeout]).map Voter.saved =
      some [⟨UInt64.size - 2, ""⟩, ⟨UInt64.size - 1, "n1"⟩, ⟨0, "n1"⟩] := by decide +kernel
  obtain ⟨v, hv, hsaved⟩ := Option.map_eq_some_iff.mp hrun
  refine ⟨v, runs_of_exec (fun _ _ h => of_decide_eq_true h) _ hv, hsaved, ?_⟩
  rw [hsaved]
  decide

end Schedules

end Raft
