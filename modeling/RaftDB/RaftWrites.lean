import RaftDB.RaftSite

/-!
# What a step writes into the log file

Handlers copy entries: what a step adds to the log file was in the log, came with the request, or
is the entry that `Propose` makes.
-/
namespace Storage

variable {D : Type} {e : Raft.LogEntry}

def StoreWrite.entries : StoreWrite D → List Raft.LogEntry
  | .writeRecord (.append e) => [e]
  | .compact es => es
  | _ => []

theorem mem_writeAll {disk : Disk D} {ws : List (StoreWrite D)}
    (h : .append e ∈ (disk.writeAll ws).wal) :
    .append e ∈ disk.wal ∨ ∃ w ∈ ws, e ∈ w.entries := by
  induction ws generalizing disk with
  | nil => exact Or.inl h
  | cons w ws ih =>
    rcases ih h with hd | ⟨x, hx, he⟩
    · cases w with
      | saveHardState | saveSnapshot => exact Or.inl hd
      | writeRecord r =>
        rcases List.mem_append.mp hd with hd | hd
        · exact Or.inl hd
        · cases List.mem_singleton.mp hd
          exact Or.inr ⟨_, List.mem_cons_self, List.mem_singleton_self e⟩
      | compact es =>
        obtain ⟨x, hx, heq⟩ := List.mem_map.mp hd
        cases heq
        exact Or.inr ⟨_, List.mem_cons_self, hx⟩
    · exact Or.inr ⟨x, List.mem_cons_of_mem _ hx, he⟩

theorem Mirrors.mem_wal {disk : Disk D} {d : Durable} (h : Mirrors disk d)
    (he : e ∈ d.log.entries) : .append e ∈ disk.wal := by
  obtain ⟨covered, hload, _⟩ := h.wal
  rcases mem_replay hload (List.mem_append_right _ he) with hnil | hmem
  · cases hnil
  · exact hmem

theorem Disk.Uint64.writes {disk : Disk D} (h : disk.Uint64) {ws : List (StoreWrite D)}
    (hw : ∀ w ∈ ws, ∀ e ∈ w.entries, e.index < UInt64.size) : (disk.writeAll ws).Uint64 := by
  intro e he
  rcases mem_writeAll he with hold | ⟨w, hmem, hnew⟩
  · exact h e hold
  · exact hw w hmem e hnew

end Storage

namespace Raft

open Storage RaftNode

variable {σ D : Type} {M : StateMachine σ D} {p : Proc σ D} {i : Input D} {o : StepOutcome σ D}
  {rn : RaftNode D} {e : LogEntry} {w : StoreWrite D}

def Input.entries : Input D → List LogEntry
  | .appendEntries args => args.entries
  | _ => []

theorem mem_appendEntries {new : List LogEntry}
    (hw : w ∈ (appendEntries new : List (StoreWrite D))) (he : e ∈ w.entries) : e ∈ new := by
  obtain ⟨x, hx, rfl⟩ := List.mem_map.mp hw
  rw [List.mem_singleton.mp he]
  exact hx

def WritesNoEntry (ws : List (StoreWrite D)) : Prop := ∀ w ∈ ws, w.entries = []

theorem writesNoEntry_nil : WritesNoEntry ([] : List (StoreWrite D)) := by
  intro w hw
  cases hw

theorem writesNoEntry_hardState (hs : HardState) :
    WritesNoEntry [(.saveHardState hs : StoreWrite D)] := by
  intro w hw
  rw [List.mem_singleton.mp hw]
  rfl

theorem WritesNoEntry.append {ws ws' : List (StoreWrite D)} (h : WritesNoEntry ws)
    (h' : WritesNoEntry ws') : WritesNoEntry (ws ++ ws') := by
  intro w hw
  exact (List.mem_append.mp hw).elim (h w) (h' w)

theorem adoptWrites_entries (rn : RaftNode D) (term : ℕ) : WritesNoEntry (rn.adoptWrites term) := by
  rw [adoptWrites]
  split
  · exact writesNoEntry_hardState _
  · exact writesNoEntry_nil

theorem becomeFollowerLocked_entries (rn : RaftNode D) (term : ℕ) :
    WritesNoEntry (rn.becomeFollowerLocked term).2 := by
  rw [becomeFollowerLocked]
  split
  · exact writesNoEntry_hardState _
  · exact writesNoEntry_nil

theorem startElectionIn_entries (rn : RaftNode D) (term : ℕ) :
    WritesNoEntry (rn.startElectionIn term).writes := by
  rw [startElectionIn]
  dsimp only
  split <;> exact writesNoEntry_hardState _

theorem handleRequestVote_entries (rn : RaftNode D) (args : RequestVoteArgs) :
    WritesNoEntry (rn.handleRequestVote args).writes := by
  rw [handleRequestVote_eq]
  split
  · exact writesNoEntry_nil
  split
  · exact (adoptWrites_entries rn args.term).append (writesNoEntry_hardState _)
  · exact adoptWrites_entries rn args.term

theorem handleRequestVoteReply_entries (rn : RaftNode D) (term : ℕ) (reply : RequestVoteReply) :
    WritesNoEntry (rn.handleRequestVoteReply term reply).writes := by
  have hcases := rn.handleRequestVoteReply_cases term reply
  generalize rn.handleRequestVoteReply term reply = o at hcases ⊢
  cases hcases with
  | deposed _ => exact becomeFollowerLocked_entries rn reply.term
  | _ => exact writesNoEntry_nil

theorem handleAppendEntriesReply_entries (rn : RaftNode D) (peer : NodeId) (term : ℕ)
    (args : AppendEntriesArgs) (reply : AppendEntriesReply) :
    WritesNoEntry (rn.handleAppendEntriesReply peer term args reply).writes := by
  have hcases := rn.handleAppendEntriesReply_cases peer term args reply
  generalize rn.handleAppendEntriesReply peer term args reply = o at hcases ⊢
  cases hcases with
  | deposed _ => exact becomeFollowerLocked_entries rn reply.term
  | _ => exact writesNoEntry_nil

theorem handleInstallSnapshotReply_entries (rn : RaftNode D) (peer : NodeId) (term : ℕ)
    (args : InstallSnapshotArgs D) (reply : InstallSnapshotReply) :
    WritesNoEntry (rn.handleInstallSnapshotReply peer term args reply).writes := by
  have hcases := rn.handleInstallSnapshotReply_cases peer term args reply
  generalize rn.handleInstallSnapshotReply peer term args reply = o at hcases ⊢
  cases hcases with
  | deposed _ => exact becomeFollowerLocked_entries rn reply.term
  | _ => exact writesNoEntry_nil

theorem propose_entries {command : List UInt8} (hw : w ∈ (rn.propose command).writes)
    (he : e ∈ w.entries) :
    rn.state = .leader ∧ e = ⟨rn.currentTerm, rn.log.lastLogIndex + 1, command⟩ := by
  rw [propose, proposeAt] at hw
  split at hw
  · cases hw
  rename_i hlead
  have hmem : w ∈ (appendEntries [⟨rn.currentTerm, rn.log.lastLogIndex + 1, command⟩] :
      List (StoreWrite D)) := by
    dsimp only at hw
    split at hw <;> exact hw
  exact ⟨not_not.mp hlead, List.mem_singleton.mp (mem_appendEntries hmem he)⟩

theorem appendWalk_entries {args : AppendEntriesArgs} {es : List LogEntry}
    (hw : w ∈ (rn.appendWalk args es).writes) (he : e ∈ w.entries) : e ∈ es := by
  induction es with
  | nil => cases hw
  | cons x rest ih =>
    rw [appendWalk] at hw
    split at hw
    · exact List.mem_cons_of_mem _ (ih hw)
    split at hw
    · split at hw
      · cases hw
      split at hw
      · exact List.mem_cons_of_mem _ (ih hw)
      split at hw
      · cases hw
      have hcut : ∀ {w : StoreWrite D}, w ∈ (rn.truncateLogLocked x.index).writes →
          w.entries = [] := by
        intro w hw
        rw [truncateLogLocked] at hw
        split at hw <;>
        · rw [List.mem_singleton.mp hw]
          rfl
      simp only at hw
      split at hw
      · rw [hcut hw] at he
        cases he
      · rcases List.mem_append.mp hw with hw | hw
        · rw [hcut hw] at he
          cases he
        · exact mem_appendEntries hw he
    · exact mem_appendEntries hw he

theorem handleAppendEntries_entries {args : AppendEntriesArgs}
    (hw : w ∈ (rn.handleAppendEntries args).writes) (he : e ∈ w.entries) : e ∈ args.entries := by
  rw [handleAppendEntries_eq] at hw
  split at hw
  · cases hw
  rcases List.mem_append.mp hw with hw | hw
  · rw [adoptWrites_entries rn args.term w hw] at he
    cases he
  rw [acceptEntries] at hw
  split at hw
  · cases hw
  · cases hw
  dsimp only at hw
  split at hw <;> exact appendWalk_entries hw he

theorem handleInstallSnapshot_entries {args : InstallSnapshotArgs D} (hn : rn.log.Numbered)
    (hw : w ∈ (rn.handleInstallSnapshot args).writes) (he : e ∈ w.entries) :
    e ∈ rn.log.entries := by
  rw [handleInstallSnapshot_eq] at hw
  split at hw
  · cases hw
  rcases List.mem_append.mp hw with hw | hw
  · rw [adoptWrites_entries rn args.term w hw] at he
    cases he
  rw [acceptSnapshot_eq (by rwa [followerOf_log])] at hw
  split at hw
  · cases hw
  rcases List.mem_cons.mp hw with rfl | hw
  · cases he
  rw [List.mem_singleton.mp hw] at he
  rw [StoreWrite.entries, suffixBeyond] at he
  split at he
  · rw [followerOf_log] at he
    exact List.mem_of_mem_drop he
  · cases he

theorem Proc.handle_writes (hn : p.node.Wf) (hok : ApplierOk p.node p.phase)
    (ho : p.handle M i = some o) (hw : w ∈ o.writes) (he : e ∈ w.entries) :
    e ∈ p.node.log.entries ∨ e ∈ i.entries ∨ ∃ command, i = .propose command ∧
      p.node.state = .leader ∧
        e = ⟨p.node.currentTerm, p.node.log.lastLogIndex + 1, command⟩ := by
  have hsilent : ∀ {P : Prop}, w.entries = [] → P := by
    intro P hnil
    rw [hnil] at he
    cases he
  cases i with
  | start =>
    obtain ⟨_, _, rfl, _⟩ := Proc.start_flagged ho
    cases hw
  | stop =>
    cases ho
    cases hw
  | electionTimeout =>
    rw [Proc.handle] at ho
    split at ho <;> cases ho
    rw [Proc.locked_writes] at hw
    exact hsilent (startElectionIn_entries p.node _ w hw)
  | propose command =>
    cases ho
    rw [Proc.locked_writes] at hw
    exact Or.inr (Or.inr ⟨command, rfl, propose_entries hw he⟩)
  | replicate term =>
    rw [Proc.handle] at ho
    split at ho <;>
    · cases ho
      cases hw
  | requestVote args =>
    cases ho
    rw [Proc.locked_writes] at hw
    exact hsilent (handleRequestVote_entries p.node args w hw)
  | appendEntries args =>
    cases ho
    rw [Proc.locked_writes] at hw
    exact Or.inr (Or.inl (handleAppendEntries_entries hw he))
  | installSnapshot args =>
    cases ho
    rw [Proc.locked_writes] at hw
    exact Or.inl (handleInstallSnapshot_entries hn.numbered hw he)
  | voteReply term reply =>
    cases ho
    rw [Proc.locked_writes] at hw
    exact hsilent (handleRequestVoteReply_entries p.node term reply w hw)
  | appendReply peer term args reply =>
    cases ho
    rw [Proc.locked_writes] at hw
    exact hsilent (handleAppendEntriesReply_entries p.node peer term args reply w hw)
  | snapshotReply peer term args reply =>
    cases ho
    rw [Proc.locked_writes] at hw
    exact hsilent (handleInstallSnapshotReply_entries p.node peer term args reply w hw)
  | applier =>
    cases p.applier_step hn hok ho with
    | save i t data _ _ =>
      rcases List.mem_cons.mp hw with rfl | hw
      · cases he
      · rw [List.mem_singleton.mp hw] at he
        exact Or.inl (List.mem_of_mem_drop he)
    | _ => cases hw

/-- An election writes no entry, so with room in the log nothing changes on the source's type. -/
theorem Proc.handleUint64_writes (hn : p.node.Wf) (hok : ApplierOk p.node p.phase)
    (hroom : p.HasRoom i) (ho : p.handleUint64 M i = some o) (hw : w ∈ o.writes)
    (he : e ∈ w.entries) :
    e ∈ p.node.log.entries ∨ e ∈ i.entries ∨ ∃ command, i = .propose command ∧
      p.node.state = .leader ∧
        e = ⟨p.node.currentTerm, p.node.log.lastLogIndex + 1, command⟩ := by
  by_cases hi : i = .electionTimeout
  · subst hi
    rw [Proc.handleUint64] at ho
    split at ho <;> cases ho
    rw [Proc.locked_writes] at hw
    rw [startElectionIn_entries p.node _ w hw] at he
    cases he
  · rw [Proc.handleUint64_eq hroom hi] at ho
    exact Proc.handle_writes hn hok ho hw he

end Raft
