import RaftDB.RaftSafety

/-!
# Leader Completeness

A state machine can be audited: next to its state it keeps the entries it was given, and a
snapshot carries them along, so that what lies under a boundary can be compared. With
snapshots loaded only by a node that still leads, every later leader has what was committed.
`sendSnapshot` does not make sure of that: it stamps the term of the round that launched it
on whatever snapshot it finds, and a node of an old term may then acknowledge entries of an
old leader that it does not have.
-/
namespace Raft

open Storage ClusterConfig ReplicatedLog LogPrefix TransitionSystem

variable {σ D : Type}

/-- The state machine with a record of the entries that went into it. -/
def StateMachine.audited (M : StateMachine σ D) :
    StateMachine (σ × List LogEntry) (D × List LogEntry) where
  init := (M.init, [])
  apply := fun s e => (M.apply s.1 e, s.2 ++ [e])
  snapshot := fun s => (M.snapshot s.1).map fun data => (data, s.2)
  restore := fun d => (M.restore d.1).map fun s => (s, d.2)

def StateMachine.audit (M : StateMachine σ D) : Represents M.audited where
  state l s := s.2 = l
  data l d := d.2 = l
  init := rfl
  apply e h := congrArg (· ++ [e]) h
  snapshot h hd := by
    obtain ⟨data, _, rfl⟩ := Option.map_eq_some_iff.mp hd
    exact h
  restore h hs := by
    obtain ⟨s, _, rfl⟩ := Option.map_eq_some_iff.mp hs
    exact h

/-- All entries of a log, those under its boundary included: position `i` is index `i + 1`. -/
def history (snapshot : Option (Snapshot (D × List LogEntry))) (log : RaftLog) : List LogEntry :=
  (snapshot.elim [] fun snap => snap.data.2) ++ log.entries

theorem history_eq {M : StateMachine σ D} {snapshot : Option (Snapshot (D × List LogEntry))}
    {below : List LogEntry} (h : Below M.audit snapshot below) (log : RaftLog) :
    history snapshot log = below ++ log.entries := by
  cases snapshot with
  | none => rw [show below = [] from h]; rfl
  | some snap => rw [← show snap.data.2 = below from h]; rfl

section Completeness

variable {M : StateMachine σ D} {c : ValidCluster} {settings : NodeId → Config}
  {s : System (σ × List LogEntry) (D × List LogEntry)}

theorem exists_fresh_account
    (h : Runs (System.step M.audited c settings) LoadsWhileLeading System.init s) :
    ∃ a, Sim M.audit c settings True s a := by
  obtain ⟨a, _, hs⟩ := (Sim.init M.audit c settings True).runs (fun hok _ => hok) h
  exact ⟨a, hs⟩

/-- What a leader commits is what every leader of a later term has inherited. -/
theorem Sim.committed_inherited {a : Abstract} (h : Sim M.audit c settings True s a)
    {n m : NodeId} {T U ci : ℕ} {snap snap' : Option (Snapshot (D × List LogEntry))}
    {log log' : RaftLog} (hc : Observation.committed n T snap log ci ∈ s.trace)
    (he : Observation.elected m U snap' log' ∈ s.trace) (hlt : T < U) :
    ∀ i < ci, ∃ e, (history snap log)[i]? = some e ∧ (history snap' log')[i]? = some e := by
  obtain ⟨cm, hcm, rfl, rfl, below, hb, htake⟩ := h.trace _ hc trivial
  obtain ⟨hwin, below', hb', hinh⟩ := h.trace _ he
  rw [history_eq hb, history_eq hb', ← hinh]
  have hpre := (Invariant.secured h.valid hcm).inherits U hlt (by simp [hwin])
  have hlen := ((Invariant.chosen h.valid).own hcm).upTo_length
  intro i hi
  have hx : (upTo a cm.term cm.pos)[i]? = some ((upTo a cm.term cm.pos).get ⟨i, by omega⟩) :=
    List.getElem?_eq_getElem (by omega)
  refine ⟨_, ?_, getElem?_of_isPrefix hpre hx⟩
  rw [← List.getElem?_take_of_lt hi, htake]
  exact hx

/-- If snapshots are loaded only while the node leads the term of the request, every leader
of a later term has what was committed, and no committed entry is ever asked to go. -/
theorem leader_completeness (M : StateMachine σ D) (c : ValidCluster)
    (settings : NodeId → Config) {s : System (σ × List LogEntry) (D × List LogEntry)}
    (hrun : Runs (System.step M.audited c settings) LoadsWhileLeading System.init s) :
    (∀ n T snap log ci m U snap' log', Observation.committed n T snap log ci ∈ s.trace →
      Observation.elected m U snap' log' ∈ s.trace → T < U →
      ∀ i < ci, ∃ e, (history snap log)[i]? = some e ∧ (history snap' log')[i]? = some e) ∧
    ∀ n reason, Observation.panicked n reason ∈ s.trace → reason.refusal = false := by
  obtain ⟨a, ha⟩ := exists_fresh_account hrun
  refine ⟨?_, fun n reason hp => ha.trace _ hp trivial⟩
  intro n T snap log ci m U snap' log' hc he hlt
  exact ha.committed_inherited hc he hlt

end Completeness

section Runs

def stateless : StateMachine Unit Unit where
  init := ()
  apply := fun _ _ => ()
  snapshot := some
  restore := some

def firstCompacts (n : NodeId) : Config := ⟨"", [], if n = "n1" then 1 else 0, 0, 0, 0, 0⟩

/-- The first member commits two entries with the second, compacts them away and installs its
snapshot on the third, which is elected next. -/
def trioHandsOver : List (Event (Unit × List LogEntry)) :=
  [.boot "n1", .boot "n2", .boot "n3", .act "n1" .start, .act "n2" .start, .act "n3" .start,
    .act "n1" .electionTimeout, .deliver 0, .receive 0,
    .act "n1" (.propose [7]), .act "n1" (.propose [8]), .act "n1" (.replicate 1), .deliver 2,
    .receive 1, .act "n1" .applier, .act "n1" .applier, .act "n1" .applier, .act "n1" .applier,
    .act "n1" .applier, .act "n1" .applier, .act "n1" (.replicate 1), .loadSnapshot 0,
    .deliver 5, .act "n3" .electionTimeout, .deliver 6, .receive 3]

theorem leader_completeness_trio :
    ∃ s snap log snap' log', exec (System.step stateless.audited trio firstCompacts)
        (fun s e => decide (LoadsWhileLeading s e)) System.init trioHandsOver = some s ∧
      Observation.committed "n1" 1 snap log 2 ∈ s.trace ∧
      Observation.elected "n3" 2 snap' log' ∈ s.trace ∧ log'.entries = [] ∧
      ∀ i < 2, ∃ e, (history snap log)[i]? = some e ∧ (history snap' log')[i]? = some e := by
  have htrace : ((exec (System.step stateless.audited trio firstCompacts)
      (fun s e => decide (LoadsWhileLeading s e)) System.init trioHandsOver).any fun s =>
      decide (Observation.committed "n1" 1 none ⟨⟨0, 0, []⟩, [⟨1, 1, [7]⟩, ⟨1, 2, [8]⟩]⟩ 2
        ∈ s.trace) &&
      decide (Observation.elected "n3" 2
        (some ⟨2, 1, ((), [⟨1, 1, [7]⟩, ⟨1, 2, [8]⟩])⟩) ⟨⟨1, 2, []⟩, []⟩ ∈ s.trace)) = true := by
    decide +kernel
  obtain ⟨s, hs, htrace⟩ := (Option.any_eq_true _ _).mp htrace
  obtain ⟨hc, he⟩ := Bool.and_eq_true_iff.mp htrace
  have hc := of_decide_eq_true hc
  have he := of_decide_eq_true he
  exact ⟨s, _, _, _, _, hs, hc, he, rfl, (leader_completeness stateless trio firstCompacts
    (runs_of_exec (fun _ _ h => of_decide_eq_true h) _ hs)).1 _ _ _ _ _ _ _ _ _ hc he
    (by decide)⟩

def septet : ValidCluster where
  nodes := [⟨"s1", "s1:1", "s1:2"⟩, ⟨"s2", "s2:1", "s2:2"⟩, ⟨"s3", "s3:1", "s3:2"⟩,
    ⟨"s4", "s4:1", "s4:2"⟩, ⟨"x", "x:1", "x:2"⟩, ⟨"y", "y:1", "y:2"⟩, ⟨"z", "z:1", "z:2"⟩]
  valid := by decide +kernel

def thirdCompacts (n : NodeId) : Config := ⟨"", [], if n = "s3" then 1 else 0, 0, 0, 0, 0⟩

/-- A snapshot is loaded long after the round that launched the goroutine. -/
def staleSnapshot : List (Event (Unit × List LogEntry)) :=
  [.boot "s1", .act "s1" .start, .boot "s2", .act "s2" .start, .boot "s3", .act "s3" .start,
    .boot "s4", .act "s4" .start, .boot "x", .act "x" .start, .boot "y", .act "y" .start,
    .boot "z", .act "z" .start,
    -- term 1: `s3` commits one entry, three more reach only `y`; it compacts, and a round
    -- launches the goroutine for `x`
    .act "s3" .electionTimeout, .deliver 0, .receive 0, .deliver 1, .receive 1, .deliver 2,
    .receive 2, .act "s3" (.propose [1]), .act "s3" (.replicate 1), .deliver 6, .receive 3,
    .deliver 7, .receive 4, .deliver 8, .receive 5, .deliver 10, .receive 6, .deliver 11,
    .receive 7, .act "s3" (.propose [2]), .act "s3" (.propose [3]), .act "s3" (.propose [4]),
    .act "s3" (.replicate 1), .deliver 16, .act "s3" .applier, .act "s3" .applier,
    .act "s3" .applier, .act "s3" .applier, .act "s3" .applier, .act "s3" (.replicate 1),
    -- term 2: `z` appends an entry that reaches `s1` and `s2`
    .act "z" .electionTimeout, .deliver 23, .receive 9, .deliver 24, .receive 10, .deliver 26,
    .receive 11, .act "z" (.propose [5]), .act "z" (.replicate 2), .deliver 29, .receive 12,
    .deliver 30, .receive 13,
    -- term 3: `y` stands and has two of the votes it needs
    .act "y" .electionTimeout, .act "y" .electionTimeout, .deliver 43, .receive 14, .deliver 44,
    .receive 15,
    -- term 4: `s1` commits its own entry above that of `z`, and `s3` compacts again
    .act "s1" .electionTimeout, .act "s1" .electionTimeout, .deliver 53, .receive 16,
    .deliver 54, .receive 17, .deliver 55, .receive 18, .act "s1" (.propose [6]),
    .act "s1" (.replicate 4), .deliver 59, .receive 19, .deliver 60, .receive 20, .deliver 61,
    .receive 21, .act "s1" (.replicate 4), .deliver 66, .receive 22, .deliver 67, .receive 23,
    .act "s1" (.replicate 4), .deliver 72, .receive 24, .act "s3" .applier, .act "s3" .applier,
    .act "s3" .applier, .act "s3" .applier, .act "s3" .applier, .act "s3" .applier,
    -- the goroutine loads the new snapshot under term 1; `x` installs it, appends the last
    -- entry of term 1 to it, acknowledges the entry of `z`, which commits it, and votes for `y`
    .loadSnapshot 0, .deliver 77, .deliver 15, .deliver 33, .receive 27, .deliver 45,
    .receive 28,
    -- the leader of term 3 overwrites what `z` has committed
    .act "y" (.replicate 3), .deliver 83, .receive 29, .act "y" (.replicate 3), .deliver 89,
    .receive 30, .act "y" (.replicate 3), .deliver 95]

/-- Without that restriction a leader of a later term lacks a committed entry, and the node
that committed it is asked to truncate it. -/
theorem leader_incompleteness :
    ∃ s snap log snap' log', exec (System.step stateless.audited septet thirdCompacts)
        (fun _ _ => true) System.init staleSnapshot = some s ∧
      Observation.committed "z" 2 snap log 2 ∈ s.trace ∧
      Observation.elected "y" 3 snap' log' ∈ s.trace ∧
      (history snap log)[1]? = some ⟨2, 2, [5]⟩ ∧
      (history snap' log')[1]? = some ⟨1, 2, [2]⟩ ∧
      Observation.panicked "z" (.truncateCommitted "z" "y" 3 2 2) ∈ s.trace := by
  have htrace : ((exec (System.step stateless.audited septet thirdCompacts)
      (fun _ _ => true) System.init staleSnapshot).any fun s =>
      decide (Observation.committed "z" 2 none ⟨⟨0, 0, []⟩, [⟨1, 1, [1]⟩, ⟨2, 2, [5]⟩]⟩ 2
        ∈ s.trace) &&
      (decide (Observation.elected "y" 3 none
        ⟨⟨0, 0, []⟩, [⟨1, 1, [1]⟩, ⟨1, 2, [2]⟩, ⟨1, 3, [3]⟩, ⟨1, 4, [4]⟩]⟩ ∈ s.trace) &&
      decide (Observation.panicked "z" (.truncateCommitted "z" "y" 3 2 2) ∈ s.trace))) = true := by
    decide +kernel
  obtain ⟨s, hs, htrace⟩ := (Option.any_eq_true _ _).mp htrace
  obtain ⟨hc, hrest⟩ := Bool.and_eq_true_iff.mp htrace
  obtain ⟨he, hp⟩ := Bool.and_eq_true_iff.mp hrest
  exact ⟨s, _, _, _, _, hs, of_decide_eq_true hc, of_decide_eq_true he, rfl, rfl,
    of_decide_eq_true hp⟩

end Runs

end Raft
