import RaftDB.RaftSafety
import RaftDB.RaftFrames

/-!
# Delivery to the state machine

One incarnation of a node from `NewNode` on, with the calls it has made on its state machine.
The indices of the calls strictly increase, no index is left out between an `Apply` and the
call before it, and `lastApplied` counts what the completed calls have reached. The order does
not depend on the peers: any replies, snapshots and requests may arrive, at any point of the
applier's work, as long as the requests number their entries consecutively. Inside a cluster
they always do.
-/
namespace Raft

open Storage RaftNode ClusterConfig TransitionSystem

variable {σ D : Type}

inductive MachineCall (D : Type) where
  | apply (e : LogEntry)
  | restore (snap : Snapshot D)
  deriving DecidableEq, Repr

def MachineCall.index : MachineCall D → ℕ
  | .apply e => e.index
  | .restore snap => snap.lastIncludedIndex

/-- What the state machine has been brought to: the index of its last call, or the boundary
that was recovered if there is none yet. -/
def lastIndex (base : ℕ) (calls : List (MachineCall D)) : ℕ :=
  (calls.getLast?.map MachineCall.index).getD base

structure Life (σ D : Type) where
  recovered : Option (Snapshot D)
  proc : Proc σ D
  calls : List (MachineCall D)

namespace Life

def boot (M : StateMachine σ D) (disk : Disk D) (rn : RaftNode D) : Life σ D :=
  ⟨disk.snapshot, Proc.boot M rn, []⟩

/-- The snapshot that a `Restore` is made with: the applier has taken its own out of
`pendingSnapshot`, and `Start` uses the recovered one. -/
def restoring (l : Life σ D) : Option (Snapshot D) :=
  match l.proc.phase with
  | .restoring snap => some snap
  | _ => l.recovered

def made (l : Life σ D) : Output D → List (MachineCall D)
  | .applied e => [.apply e]
  | .restored _ => (l.restoring.map MachineCall.restore).toList
  | _ => []

def step (M : StateMachine σ D) (l : Life σ D) (i : Input D) : Option (Life σ D) :=
  match l.proc.handle M i with
  | none => none
  | some o =>
    match o.result with
    | .error _ => none
    | .ok (p', out) => some { l with proc := p', calls := l.calls ++ l.made out }

end Life

def NumberedInput (_ : Life σ D) (i : Input D) : Prop := i.Numbered

instance (l : Life σ D) (i : Input D) : Decidable (NumberedInput l i) :=
  inferInstanceAs (Decidable i.Numbered)

section Calls

variable {base : ℕ} {calls : List (MachineCall D)} {c : MachineCall D}

@[simp] theorem lastIndex_nil : lastIndex base ([] : List (MachineCall D)) = base := rfl

@[simp] theorem lastIndex_concat : lastIndex base (calls ++ [c]) = c.index := by
  simp [lastIndex]

/-- The calls climb, and every `Apply` continues where the call before it ended. -/
structure InOrder (base : ℕ) (calls : List (MachineCall D)) : Prop where
  increasing : (calls.map MachineCall.index).Pairwise (· < ·)
  next : ∀ {before e after}, calls = before ++ .apply e :: after →
    e.index = lastIndex base before + 1

theorem inOrder_nil : InOrder base ([] : List (MachineCall D)) :=
  ⟨List.Pairwise.nil, fun h => by simp at h⟩

theorem InOrder.le_last (h : InOrder base calls) (hc : c ∈ calls) :
    c.index ≤ lastIndex base calls := by
  cases calls using List.reverseRecOn with
  | nil => cases hc
  | append_singleton rest x =>
    rw [lastIndex_concat]
    rcases List.mem_append.mp hc with hmem | hmem
    · have hpair := h.increasing
      rw [List.map_append, List.pairwise_append] at hpair
      exact (hpair.2.2 _ (List.mem_map_of_mem hmem) _ (by simp)).le
    · rw [List.mem_singleton.mp hmem]

theorem InOrder.concat (h : InOrder base calls)
    (hbelow : ∀ x ∈ calls, x.index < c.index)
    (hnext : ∀ e, c = .apply e → e.index = lastIndex base calls + 1) :
    InOrder base (calls ++ [c]) := by
  refine ⟨?_, ?_⟩
  · rw [List.map_append, List.pairwise_append]
    refine ⟨h.increasing, List.pairwise_singleton _ _, ?_⟩
    intro i hi j hj
    obtain ⟨x, hx, rfl⟩ := List.mem_map.mp hi
    rw [List.map_singleton, List.mem_singleton] at hj
    rw [hj]
    exact hbelow x hx
  · intro before e after heq
    cases after using List.reverseRecOn with
    | nil =>
      obtain ⟨rfl, hc⟩ := List.append_inj' heq rfl
      exact hnext e (List.singleton_inj.mp hc)
    | append_singleton rest x =>
      rw [← List.cons_append, ← List.append_assoc] at heq
      exact h.next (List.append_inj' heq rfl).1

end Calls

theorem newNode_caughtUp {cfg : Config} {disk : Disk D} {rn : RaftNode D}
    (h : newNode cfg disk = .ok rn) :
    rn.Wf ∧ ApplierOk rn .waiting ∧ rn.lastApplied = (boundary disk.snapshot).index ∧
      rn.commitIndex = rn.lastApplied ∧ rn.pendingSnapshot = none ∧
      rn.initialSnapshotData = disk.snapshot.map Snapshot.data := by
  obtain ⟨_, loaded, es, _, hrec, rfl⟩ := newNodeFrom_ok.mp h
  have hn : RaftLog.Numbered ⟨boundary disk.snapshot, es⟩ := (recoverEntries_ok le_rfl hrec).1
  refine ⟨⟨hn, le_rfl, hn.base_le_last⟩, ⟨le_rfl, le_rfl, fun _ => le_rfl, ?_, ?_⟩, rfl, rfl, rfl, rfl⟩
  · rintro _ ⟨⟩
  · rintro _ _ ⟨⟩

theorem Proc.Flagged.keeps {M : StateMachine σ D} {p p' : Proc σ D} {out : Output D}
    (hf : p.Flagged M p' out) (hw : p.node.Wf) (ha : ApplierOk p.node p.phase) :
    p'.node.Wf ∧ ApplierOk p'.node p'.phase := by
  obtain ⟨hph, a, b, c, hnode⟩ := hf.same
  rw [hnode, hph]
  exact ⟨⟨hw.numbered, hw.base_le, hw.commit_le⟩,
    ha.of_same rfl rfl le_rfl rfl fun _ _ _ => rfl⟩

theorem Proc.handle_made {M : StateMachine σ D} {p p' : Proc σ D} {i : Input D}
    {o : StepOutcome σ D} {out : Output D} (ho : p.handle M i = some o)
    (hx : o.result = .ok (p', out)) :
    i = .start ∨ i = .applier ∨ ∀ l : Life σ D, l.made out = [] := by
  rcases (handled ho hx).output with hi | ⟨hne, hi | hne'⟩
  · exact Or.inr (Or.inl hi)
  · exact Or.inl hi
  · cases out with
    | applied e => exact absurd rfl (hne e)
    | restored data => exact absurd rfl (hne' data)
    | _ => exact Or.inr (Or.inr fun _ => rfl)

def Life.base (l : Life σ D) : ℕ := (boundary l.recovered).index

/-- What the applier has taken up lies beyond what it has reached; a batch in progress holds
the entries right behind those already applied. -/
def Phase.Due (rn : RaftNode D) : Phase D → Prop
  | .restoring snap => rn.lastApplied < snap.lastIncludedIndex
  | .applying rest size => rest.length ≤ size ∧
      Consecutive (rn.lastApplied + (size - rest.length)) rest
  | _ => True

theorem Phase.Due.of_same {rn rn' : RaftNode D} {phase : Phase D} (h : phase.Due rn)
    (happ : rn'.lastApplied = rn.lastApplied) : phase.Due rn' := by
  cases phase with
  | restoring snap | applying rest size => simpa only [Phase.Due, happ] using h
  | _ => trivial

structure Life.Orderly (l : Life σ D) : Prop where
  wf : l.proc.node.Wf
  applier : ApplierOk l.proc.node l.proc.phase
  due : l.proc.phase.Due l.proc.node
  unstarted : l.proc.node.started = false → l.proc.phase = .waiting ∧ l.calls = []
  initial : ∀ {data}, l.proc.node.initialSnapshotData = some data → ∃ snap, l.recovered = some snap
  last : lastIndex l.base l.calls = l.proc.phase.progress l.proc.node
  order : InOrder l.base l.calls

namespace Life

variable {M : StateMachine σ D} {l l' : Life σ D}

theorem made_quiet : l.made .quiet = [] := rfl

theorem boot_orderly {cfg : Config} {disk : Disk D} {rn : RaftNode D}
    (h : newNode cfg disk = .ok rn) : (boot M disk rn).Orderly := by
  obtain ⟨hw, ha, happ, _, _, hinit⟩ := newNode_caughtUp h
  refine ⟨hw, ha, trivial, fun _ => ⟨rfl, rfl⟩, ?_, happ.symm, inOrder_nil⟩
  intro data hd
  obtain ⟨snap, hsnap, _⟩ := Option.map_eq_some_iff.mp (hinit.symm.trans hd)
  exact ⟨snap, hsnap⟩

theorem Orderly.moves (h : l.Orderly) {I : Snapshot D → Prop} {ws : List (StoreWrite D)}
    {rn' : RaftNode D} (hm : Moves I l.proc.node ws rn') :
    Orderly { l with proc := { l.proc with node := rn' } } := by
  obtain ⟨_, hst, _, hinit, happ⟩ := hm.settings
  refine ⟨hm.wf h.wf, hm.applierOk h.wf h.applier, ?_, ?_, ?_, ?_, h.order⟩
  · exact h.due.of_same happ
  · intro hfalse
    exact h.unstarted (hst.symm.trans hfalse)
  · intro data hd
    exact h.initial (hinit.symm.trans hd)
  · exact h.last.trans (l.proc.phase.progress_of_same happ).symm

theorem Orderly.flagged (h : l.Orderly) {p' : Proc σ D} {out : Output D}
    (hf : l.proc.Flagged M p' out) :
    Orderly { l with proc := p', calls := l.calls ++ l.made out } := by
  obtain ⟨hw, ha⟩ := hf.keeps h.wf h.applier
  cases hf with
  | stopped =>
    rw [made_quiet, List.append_nil]
    exact ⟨hw, ha, h.due, h.unstarted, h.initial, h.last, h.order⟩
  | started hfresh hnone =>
    rw [made_quiet, List.append_nil]
    refine ⟨hw, ha, h.due, by rintro ⟨⟩, h.initial, h.last, h.order⟩
  | resumed data s hfresh hdata _ =>
    obtain ⟨hph, hcalls⟩ := h.unstarted hfresh
    obtain ⟨snap, hsnap⟩ := h.initial hdata
    have hmade : l.made (.restored data) = [.restore snap] := by
      rw [made, restoring, hph, hsnap]
      rfl
    have hbase : l.base = snap.lastIncludedIndex := by
      rw [base, hsnap]
      rfl
    rw [hmade, hcalls, List.nil_append]
    refine ⟨hw, ha, h.due, by rintro ⟨⟩, by rintro _ ⟨⟩, ?_, ?_⟩
    · have hlast := h.last
      rw [hcalls, hph, lastIndex_nil, hbase] at hlast
      rw [hph]
      exact hlast
    · exact inOrder_nil.concat (by simp) (by rintro _ ⟨⟩)

structure Running (l : Life σ D) (p' : Proc σ D) : Prop where
  wf : p'.node.Wf
  applier : ApplierOk p'.node p'.phase
  due : p'.phase.Due p'.node
  started : p'.node.started = true
  initial : p'.node.initialSnapshotData = l.proc.node.initialSnapshotData

theorem Orderly.quiet (h : l.Orderly) {p' : Proc σ D} (hr : l.Running p')
    (hsame : p'.phase.progress p'.node = l.proc.phase.progress l.proc.node) :
    Orderly { l with proc := p', calls := l.calls ++ [] } := by
  rw [List.append_nil]
  refine ⟨hr.wf, hr.applier, hr.due, ?_, ?_, h.last.trans hsame.symm, h.order⟩
  · intro hfalse
    exact absurd (hr.started.symm.trans hfalse) (by decide)
  · intro data hd
    exact h.initial (hr.initial.symm.trans hd)

theorem Orderly.called (h : l.Orderly) {p' : Proc σ D} (hr : l.Running p')
    {c : MachineCall D} (hc : c.index = p'.phase.progress p'.node)
    (hlt : l.proc.phase.progress l.proc.node < c.index)
    (hnext : ∀ e, c = .apply e → e.index = l.proc.phase.progress l.proc.node + 1) :
    Orderly { l with proc := p', calls := l.calls ++ [c] } := by
  refine ⟨hr.wf, hr.applier, hr.due, ?_, ?_, lastIndex_concat.trans hc, h.order.concat ?_ ?_⟩
  · intro hfalse
    exact absurd (hr.started.symm.trans hfalse) (by decide)
  · intro data hd
    exact h.initial (hr.initial.symm.trans hd)
  · intro x hx
    exact ((h.order.le_last hx).trans h.last.le).trans_lt hlt
  · intro e he
    rw [hnext e he]
    exact congrArg (· + 1) h.last.symm

theorem Orderly.applies (h : l.Orderly) {o : StepOutcome σ D} (hs : ApplierStep M l.proc o)
    {p' : Proc σ D} {out : Output D} (hx : o.result = .ok (p', out)) :
    Orderly { l with proc := p', calls := l.calls ++ l.made out } := by
  obtain ⟨hw, ha⟩ := hs.keeps h.wf h.applier hx
  have hbusy : l.proc.phase ≠ .waiting → l.proc.node.started = true := fun hph =>
    Bool.eq_true_of_not_eq_false fun hfalse => hph (h.unstarted hfalse).1
  have hdue := h.due
  cases hs with
  | park snap hst hph hp =>
    cases hx
    have hparked := h.applier.parked hp
    rw [hph] at hparked
    refine h.quiet ⟨hw, ha, ?_, hst, rfl⟩ (by rw [hph]; rfl)
    exact hparked.2.trans_eq hparked.1.symm
  | batch hst hph hp hlt =>
    cases hx
    have hb : l.proc.node.log.base ≤ l.proc.node.lastApplied := by
      have hb := h.applier.caught_up hp
      rwa [hph] at hb
    have hcommit := h.wf.commit_le
    rw [h.wf.numbered.lastLogIndex_eq] at hcommit
    have hlen : ((l.proc.node.log.entries.drop (l.proc.node.lastApplied - l.proc.node.log.base)).take
        (l.proc.node.commitIndex - l.proc.node.lastApplied)).length =
        l.proc.node.commitIndex - l.proc.node.lastApplied := by
      rw [List.length_take, List.length_drop]
      omega
    refine h.quiet ⟨hw, ha, ⟨hlen.le, ?_⟩, hst, rfl⟩ ?_
    · have hdrop := h.wf.numbered.drop (k := l.proc.node.lastApplied - l.proc.node.log.base)
        (by omega)
      rw [Nat.add_sub_cancel' hb] at hdrop
      rw [hlen, Nat.sub_self]
      exact hdrop.take _
    · simp only [Phase.progress, hlen, Nat.sub_self, Nat.add_zero, hph]
  | restore snap s hph _ =>
    cases hx
    rw [hph] at hdue
    have hmade : l.made (.restored snap.data) = [.restore snap] := by
      rw [made, restoring, hph]
      rfl
    rw [hmade]
    refine h.called ⟨hw, ha, trivial, hbusy (by simp [hph]), rfl⟩ rfl ?_ (by rintro _ ⟨⟩)
    rw [hph]
    exact hdue
  | credit index hph =>
    cases hx
    exact h.quiet ⟨hw, ha, trivial, hbusy (by simp [hph]), rfl⟩ (by rw [hph]; rfl)
  | apply e rest size hph =>
    cases hx
    rw [hph] at hdue
    obtain ⟨hle, hindex, hrest⟩ := hdue
    rw [List.length_cons] at hle hindex hrest
    have hprog : l.proc.phase.progress l.proc.node =
        l.proc.node.lastApplied + (size - (rest.length + 1)) := by
      rw [hph]
      rfl
    have hnext : l.proc.node.lastApplied + (size - (rest.length + 1)) + 1 =
        l.proc.node.lastApplied + (size - rest.length) := by omega
    rw [hnext] at hindex hrest
    refine h.called ⟨hw, ha, ⟨by omega, hrest⟩, hbusy (by simp [hph]), rfl⟩ hindex ?_ ?_
    · rw [hprog]
      change _ < e.index
      omega
    · rintro _ ⟨⟩
      rw [hprog, hindex, hnext]
  | finish size phase hph hphase =>
    cases hx
    have hst := hbusy (by simp [hph])
    rcases hphase with rfl | ⟨t, rfl, _⟩
    · exact h.quiet ⟨hw, ha, trivial, hst, rfl⟩ (by rw [hph]; rfl)
    · exact h.quiet ⟨hw, ha, trivial, hst, rfl⟩ (by rw [hph]; rfl)
  | capture i t data hph _ =>
    cases hx
    exact h.quiet ⟨hw, ha, trivial, hbusy (by simp [hph]), rfl⟩ (by rw [hph]; rfl)
  | skip i t data hph _ =>
    cases hx
    exact h.quiet ⟨hw, ha, trivial, hbusy (by simp [hph]), rfl⟩ (by rw [hph]; rfl)
  | save i t data hph _ =>
    cases hx
    exact h.quiet ⟨hw, ha, trivial, hbusy (by simp [hph]), rfl⟩ (by rw [hph]; rfl)
  | panic e _ => cases hx

theorem step_cases {i : Input D} (hst : l.step M i = some l') :
    ∃ o p' out, l.proc.handle M i = some o ∧ o.result = .ok (p', out) ∧
      l' = { l with proc := p', calls := l.calls ++ l.made out } := by
  rw [step] at hst
  split at hst
  · cases hst
  rename_i o ho
  split at hst
  · cases hst
  rename_i p' out hx
  cases hst
  exact ⟨o, p', out, ho, hx, rfl⟩

theorem Orderly.step (h : l.Orderly) {i : Input D} (hi : i.Numbered)
    (hst : l.step M i = some l') : l'.Orderly := by
  obtain ⟨o, p', out, ho, hx, rfl⟩ := step_cases hst
  rcases l.proc.handle_cases h.wf hi ho with ⟨rn', hm, hr⟩ | ⟨q, out', rfl, hf⟩ | ⟨_, happ⟩
  · have hp : p' = { l.proc with node := rn' } := hr _ hx
    rcases Proc.handle_made ho hx with rfl | rfl | hmade
    · obtain ⟨q, out', rfl, hf⟩ := Proc.start_flagged ho
      cases hx
      exact h.flagged hf
    · exact h.applies (l.proc.applier_step h.wf h.applier ho) hx
    · rw [hmade, List.append_nil, hp]
      exact h.moves hm
  · cases hx
    exact h.flagged hf
  · exact h.applies (l.proc.applier_step h.wf h.applier happ) hx

end Life

/-- Exactly once and in log order, in every incarnation: the calls strictly climb, so none
is repeated or undone; an `Apply` comes one behind the call before it, or behind the
recovered boundary; and `lastApplied` is where the completed calls have got to, with a batch
or a restore credited at its end. -/
theorem delivery_in_order (M : StateMachine σ D) (cfg : Config) (disk : Disk D) {rn : RaftNode D}
    (hboot : newNode cfg disk = .ok rn) {l : Life σ D}
    (hrun : Runs (Life.step M) NumberedInput (Life.boot M disk rn) l) :
    (l.calls.map MachineCall.index).Pairwise (· < ·) ∧
      (∀ before e after, l.calls = before ++ .apply e :: after →
        e.index = lastIndex (boundary disk.snapshot).index before + 1) ∧
      lastIndex (boundary disk.snapshot).index l.calls = l.proc.phase.progress l.proc.node ∧
      l.proc.node.lastApplied ≤ l.proc.node.commitIndex := by
  have hinv : l.Orderly ∧ l.recovered = disk.snapshot := by
    refine hrun.invariant (P := fun l => l.Orderly ∧ l.recovered = disk.snapshot)
      ⟨Life.boot_orderly hboot, rfl⟩ ?_
    rintro u i v ⟨hu, hsnap⟩ hi hst
    refine ⟨hu.step hi hst, ?_⟩
    obtain ⟨_, _, _, _, _, rfl⟩ := Life.step_cases hst
    exact hsnap
  obtain ⟨h, hsnap⟩ := hinv
  have hbase : l.base = (boundary disk.snapshot).index := by rw [Life.base, hsnap]
  rw [← hbase]
  exact ⟨h.order.increasing, fun _ _ _ => h.order.next, h.last,
    h.applier.applied_le.trans h.applier.reach_le⟩

/-- A node comes back with a snapshot at 2, applies two entries of a larger batch, gets a
snapshot at 7 in the middle of it, finishes the batch, restores and applies on. -/
def resumesAndSkips : List (Input (List LogEntry)) :=
  [.start,
    .appendEntries ⟨2, "n2", 3, 1, [⟨2, 4, [4]⟩, ⟨2, 5, [5]⟩], 5⟩,
    .applier, .applier, .applier,
    .installSnapshot ⟨3, "n3", 7, 3, 0, [], true⟩,
    .applier, .applier, .applier, .applier, .applier,
    .appendEntries ⟨3, "n3", 7, 3, [⟨3, 8, [8]⟩], 8⟩,
    .applier, .applier, .applier]

def filesAtTwo : Disk (List LogEntry) :=
  ⟨some ⟨1, "n2"⟩, [.append ⟨1, 3, [3]⟩], some ⟨2, 1, []⟩⟩

theorem delivery_in_order_resumed :
    ∃ rn l, newNode ⟨"n1", ["n2", "n3"], 0, 0, 0, 0, 0⟩ filesAtTwo = .ok rn ∧
      exec (Life.step recorder) (fun l i => decide (NumberedInput l i))
        (Life.boot recorder filesAtTwo rn) resumesAndSkips = some l ∧
      l.calls = [.restore ⟨2, 1, []⟩, .apply ⟨1, 3, [3]⟩, .apply ⟨2, 4, [4]⟩,
        .apply ⟨2, 5, [5]⟩, .restore ⟨7, 3, []⟩, .apply ⟨3, 8, [8]⟩] ∧
      (l.calls.map MachineCall.index).Pairwise (· < ·) ∧
      (∀ before e after, l.calls = before ++ .apply e :: after →
        e.index = lastIndex 2 before + 1) ∧
      lastIndex 2 l.calls = l.proc.phase.progress l.proc.node ∧
      l.proc.node.lastApplied ≤ l.proc.node.commitIndex := by
  have hlife : (newNode ⟨"n1", ["n2", "n3"], 0, 0, 0, 0, 0⟩ filesAtTwo).toOption.bind (fun rn =>
      (exec (Life.step recorder) (fun l i => decide (NumberedInput l i))
        (Life.boot recorder filesAtTwo rn) resumesAndSkips).map Life.calls) =
      some [.restore ⟨2, 1, []⟩, .apply ⟨1, 3, [3]⟩, .apply ⟨2, 4, [4]⟩,
        .apply ⟨2, 5, [5]⟩, .restore ⟨7, 3, []⟩, .apply ⟨3, 8, [8]⟩] := by decide +kernel
  cases hboot : newNode ⟨"n1", ["n2", "n3"], 0, 0, 0, 0, 0⟩ filesAtTwo with
  | error err =>
    rw [hboot] at hlife
    cases hlife
  | ok rn =>
    rw [hboot] at hlife
    obtain ⟨l, hl, hcalls⟩ := Option.map_eq_some_iff.mp hlife
    refine ⟨rn, l, rfl, hl, hcalls, ?_⟩
    exact delivery_in_order recorder _ filesAtTwo hboot
      (runs_of_exec (fun _ _ h => of_decide_eq_true h) resumesAndSkips hl)

section Cluster

variable {M : StateMachine σ D} {c : ValidCluster} {settings : NodeId → Config}
  {s t : System σ D} {n : NodeId}

/-- Members send each other consecutive entries only. -/
theorem inputs_numbered (hrun : Runs (System.step M c settings) Always System.init s)
    {e : Event D} (hst : s.step M c settings e = some t) {i : Input D}
    (hin : s.inputOf e = some (n, i)) : i.Numbered := by
  obtain ⟨a, ha⟩ := exists_account hrun
  cases input_origin hst hin with
  | own hi =>
    cases i with
    | appendEntries args => cases hi
    | _ => trivial
  | request call hk _ hi =>
    have hcall := (ha.calls call (List.mem_of_getElem? hk)).request
    rw [hi]
    cases hreq : call.request with
    | append args =>
      rw [hreq] at hcall
      exact hcall.numbered ha.indexed
    | vote args | snapshot args => trivial
  | reply k call reply _ _ _ hi _ =>
    cases reply <;> rw [Call.input] at hi <;> split at hi <;> cases hi <;> trivial

/-- Every process of the cluster is in the course of such a life. -/
theorem process_lives (hrun : Runs (System.step M c settings) Always System.init s)
    {p : Proc σ D} (hp : (s.hosts n).proc = some p) :
    ∃ disk rn l, newNode (nodeConfig c settings n) disk = .ok rn ∧
      Runs (Life.step M) NumberedInput (Life.boot M disk rn) l ∧ l.proc = p := by
  induction hrun generalizing p with
  | refl => cases hp
  | tail hrun _ hst ih =>
    cases proc_step hst hp with
    | same hsame =>
      rw [hsame] at hp
      exact ih hp
    | boot rn hrn heq => exact ⟨_, rn, _, hrn, .refl, heq.symm⟩
    | moved q i o out hin hq ho hx =>
      obtain ⟨disk, rn, l, hrn, hlife, rfl⟩ := ih hq
      have hstep : l.step M i = some ⟨l.recovered, p, l.calls ++ l.made out⟩ := by
        rw [Life.step, ho]
        simp only [hx]
      exact ⟨disk, rn, _, hrn, hlife.tail (inputs_numbered hrun hst hin) hstep, rfl⟩

end Cluster

end Raft
