import RaftDB.RaftDelivery
import RaftDB.RaftVotes

/-!
# The order of a node's indices

One incarnation against arbitrary peers. Whatever the fields of requests and replies say, as long
as requests number their entries consecutively, the slots of the log are numbered from the
boundary on, boundary, commit index and end of the log keep their order, the applier stays behind
the commit index, and none of these, nor the term, ever falls.
-/
namespace Raft

open Storage RaftNode TransitionSystem

variable {σ D : Type}

/-- Nothing that a node counts with has fallen. -/
structure Advances (rn rn' : RaftNode D) : Prop where
  term : rn.currentTerm ≤ rn'.currentTerm
  base : rn.log.base ≤ rn'.log.base
  commit : rn.commitIndex ≤ rn'.commitIndex
  applied : rn.lastApplied ≤ rn'.lastApplied

section Steps

variable {rn rn' rn'' : RaftNode D} {I : Snapshot D → Prop} {ws : List (StoreWrite D)}

theorem Advances.refl (rn : RaftNode D) : Advances rn rn := ⟨le_rfl, le_rfl, le_rfl, le_rfl⟩

theorem Advances.trans (h : Advances rn rn') (h' : Advances rn' rn'') : Advances rn rn'' :=
  ⟨h.term.trans h'.term, h.base.trans h'.base, h.commit.trans h'.commit,
    h.applied.trans h'.applied⟩

theorem Move.base_le (hm : Move I rn ws rn') (hw : rn.Wf) : rn.log.base ≤ rn'.log.base := by
  cases hm with
  | adopt term hlt => rw [inTerm_log]
  | install snap _ hlt => exact hw.base_le.trans hlt.le
  | _ => exact le_rfl

theorem Moves.base_le (hm : Moves I rn ws rn') (hw : rn.Wf) : rn.log.base ≤ rn'.log.base := by
  induction hm with
  | refl => exact le_rfl
  | tail hms hm ih => exact ih.trans (hm.base_le (hms.wf hw))

variable {M : StateMachine σ D} {p p' : Proc σ D} {o : StepOutcome σ D} {out : Output D}

theorem Proc.Flagged.advances (hf : p.Flagged M p' out) : Advances p.node p'.node := by
  obtain ⟨_, _, _, _, hnode⟩ := hf.same
  rw [hnode]
  exact ⟨le_rfl, le_rfl, le_rfl, le_rfl⟩

/-- The applier credits what it had taken up, and compacts beyond the boundary only. -/
theorem ApplierStep.advances (hs : ApplierStep M p o) (ha : ApplierOk p.node p.phase)
    (hx : o.result = .ok (p', out)) : Advances p.node p'.node := by
  cases hs with
  | credit index hph =>
    cases hx
    have happlied := ha.applied_le
    rw [hph] at happlied
    exact ⟨le_rfl, le_rfl, le_rfl, happlied⟩
  | finish size phase hph _ =>
    cases hx
    exact ⟨le_rfl, le_rfl, le_rfl, Nat.le_add_right _ _⟩
  | save i t data hph hb =>
    cases hx
    exact ⟨le_rfl, hb.le, le_rfl, le_rfl⟩
  | panic e _ => cases hx
  | _ =>
    cases hx
    exact ⟨le_rfl, le_rfl, le_rfl, le_rfl⟩

variable {l l' : Life σ D}

theorem Life.Orderly.advances (h : l.Orderly) {i : Input D} (hi : i.Numbered)
    (hst : l.step M i = some l') : Advances l.proc.node l'.proc.node := by
  obtain ⟨o, p', out, ho, hx, rfl⟩ := Life.step_cases hst
  rcases l.proc.handle_cases h.wf hi ho with ⟨rn', hm, hr⟩ | ⟨q, out', rfl, hf⟩ | ⟨_, happ⟩
  · obtain ⟨B, hrec⟩ := Proc.handle_recorded ho
    have hterm := (hrec.precedes hx).term_le
    have hp : p' = { l.proc with node := rn' } := hr _ hx
    rw [hp] at hterm ⊢
    exact ⟨hterm, hm.base_le h.wf, hm.commit_le, hm.settings.2.2.2.2.ge⟩
  · cases hx
    exact hf.advances
  · exact (l.proc.applier_step h.wf h.applier happ).advances h.applier hx

theorem Life.Orderly.runs (h : l.Orderly) (hrun : Runs (Life.step M) NumberedInput l l') :
    l'.Orderly ∧ Advances l.proc.node l'.proc.node := by
  induction hrun with
  | refl => exact ⟨h, .refl _⟩
  | tail _ hi hst ih => exact ⟨ih.1.step hi hst, ih.2.trans (ih.1.advances hi hst)⟩

theorem RaftLog.Numbered.slot_index {log : RaftLog} (h : log.Numbered) {k : ℕ} {e : LogEntry}
    (he : log.slots[k]? = some e) : e.index = log.base + k := by
  cases k with
  | zero =>
    cases he
    rfl
  | succ k => exact h.index_eq he

end Steps

/-- From `NewNode` on, against any peers: the slots are numbered from the boundary on, the indices
are in order, and at every later point of the incarnation none of them has fallen. -/
theorem indices_in_order (M : StateMachine σ D) (cfg : Config) (disk : Disk D) {rn : RaftNode D}
    (hboot : newNode cfg disk = .ok rn) {l l' : Life σ D}
    (hrun : Runs (Life.step M) NumberedInput (Life.boot M disk rn) l)
    (hlater : Runs (Life.step M) NumberedInput l l') :
    (∀ k e, l.proc.node.log.slots[k]? = some e → e.index = l.proc.node.log.base + k) ∧
    l.proc.node.log.base ≤ l.proc.node.commitIndex ∧
    l.proc.node.commitIndex ≤ l.proc.node.log.lastLogIndex ∧
    l.proc.node.lastApplied ≤ l.proc.node.commitIndex ∧
    l.proc.node.currentTerm ≤ l'.proc.node.currentTerm ∧
    l.proc.node.log.base ≤ l'.proc.node.log.base ∧
    l.proc.node.commitIndex ≤ l'.proc.node.commitIndex ∧
    l.proc.node.lastApplied ≤ l'.proc.node.lastApplied := by
  have h := ((Life.boot_orderly hboot).runs hrun).1
  have hadv := (h.runs hlater).2
  exact ⟨fun _ _ => h.wf.numbered.slot_index, h.wf.base_le, h.wf.commit_le,
    h.applier.applied_le.trans h.applier.reach_le, hadv.term, hadv.base, hadv.commit,
    hadv.applied⟩

def oddInputs : List (Input (List LogEntry)) :=
  [.start, .snapshotReply "n7" 1 ⟨9, "n9", 40, 12, 0, [], true⟩ ⟨0⟩,
    .appendReply "n2" 1 ⟨1, "n8", 90, 3, [], 7⟩ { term := 0, success := true },
    .appendEntries ⟨5, "n8", 3, 1, [⟨0, 4, [4]⟩, ⟨9, 5, [5]⟩], 80⟩, .electionTimeout,
    .installSnapshot ⟨8, "n9", 30, 70, 0, [], true⟩]

theorem indices_in_order_odd :
    ∃ rn l l', newNode ⟨"n1", ["n2", "n3"], 0, 0, 0, 0, 0⟩ filesAtTwo = .ok rn ∧
      exec (Life.step recorder) (fun l i => decide (NumberedInput l i))
        (Life.boot recorder filesAtTwo rn) (oddInputs.take 4) = some l ∧
      exec (Life.step recorder) (fun l i => decide (NumberedInput l i)) l (oddInputs.drop 4) =
        some l' ∧
      l.proc.node.commitIndex ≤ l.proc.node.log.lastLogIndex ∧
      l.proc.node.log.base ≤ l'.proc.node.log.base ∧
      l.proc.node.commitIndex ≤ l'.proc.node.commitIndex := by
  have hruns : (newNode ⟨"n1", ["n2", "n3"], 0, 0, 0, 0, 0⟩ filesAtTwo).toOption.any (fun rn =>
      (exec (Life.step recorder) (fun l i => decide (NumberedInput l i))
        (Life.boot recorder filesAtTwo rn) (oddInputs.take 4)).any fun l =>
          (exec (Life.step recorder) (fun l i => decide (NumberedInput l i)) l
            (oddInputs.drop 4)).isSome) = true := by decide +kernel
  cases hboot : newNode ⟨"n1", ["n2", "n3"], 0, 0, 0, 0, 0⟩ filesAtTwo with
  | error err =>
    rw [hboot] at hruns
    cases hruns
  | ok rn =>
    rw [hboot] at hruns
    obtain ⟨_, ⟨⟩, hruns⟩ := (Option.any_eq_true _ _).mp hruns
    obtain ⟨l, hl, hrest⟩ := (Option.any_eq_true _ _).mp hruns
    obtain ⟨l', hl'⟩ := Option.isSome_iff_exists.mp hrest
    obtain ⟨_, _, hlast, _, _, hbase, hcommit, _⟩ := indices_in_order recorder _ filesAtTwo hboot
      (runs_of_exec (fun _ _ h => of_decide_eq_true h) _ hl)
      (runs_of_exec (fun _ _ h => of_decide_eq_true h) _ hl')
    exact ⟨rn, l, l', rfl, hl, hl', hlast, hbase, hcommit⟩

end Raft
