import RaftDB.RaftClusterSteps

/-!
# Safety of the cluster

Log Matching and State Machine Safety, for every run with loss, delay, reordering and
duplication of messages, with crashes and restarts, compaction and snapshot installation. Each
is read off the abstract state that accounts for the run.
-/
namespace Raft

open Storage ClusterConfig ReplicatedLog LogPrefix TransitionSystem
open RaftNode hiding id

variable {σ D : Type} {M : StateMachine σ D} {c : ValidCluster} {settings : NodeId → Config}
  {s t : System σ D} {a a' : Abstract}

/-- What holds whatever the state machine does and whenever snapshots are loaded. -/
abbrev Accounts (M : StateMachine σ D) (c : ValidCluster) (settings : NodeId → Config)
    (s : System σ D) (a : Abstract) : Prop :=
  Sim (Represents.nothing M) c settings False s a

theorem exists_account (h : Runs (System.step M c settings) Always System.init s) :
    ∃ a, Accounts M c settings s a := by
  obtain ⟨a, _, hs⟩ := (Sim.init (Represents.nothing M) c settings False).runs
    (fun _ => False.elim) h
  exact ⟨a, hs⟩

theorem exists_later_account (hs : Accounts M c settings s a)
    (h : Runs (System.step M c settings) Always s t) :
    ∃ a', Grows a a' ∧ Accounts M c settings t a' := by
  obtain ⟨a', he, ha'⟩ := hs.runs (fun _ => False.elim) h
  exact ⟨a', he.grows hs.valid, ha'⟩

section Runs

def trio : ValidCluster where
  nodes := [⟨"n1", "h1:7001", "h1:8001"⟩, ⟨"n2", "h2:7001", "h2:8001"⟩,
    ⟨"n3", "h3:7001", "h3:8001"⟩]
  valid := by decide +kernel

def noSettings (_ : NodeId) : Config := ⟨"", [], 0, 0, 0, 0, 0⟩

def trioElects : List (Event (List LogEntry)) :=
  [.boot "n1", .boot "n2", .boot "n3", .act "n1" .start, .act "n2" .start, .act "n3" .start,
    .act "n1" .electionTimeout, .deliver 0, .receive 0]

def trioApplies : List (Event (List LogEntry)) :=
  [.act "n1" (.propose [7]), .act "n1" (.propose [8]), .act "n1" (.replicate 1), .deliver 2,
    .receive 1, .act "n1" (.replicate 1), .deliver 4, .act "n1" .applier, .act "n1" .applier,
    .act "n1" .applier, .act "n2" .applier, .act "n2" .applier, .act "n2" .applier]

abbrev trioExec (s : System (List LogEntry) (List LogEntry)) :
    List (Event (List LogEntry)) → Option (System (List LogEntry) (List LogEntry)) :=
  exec (System.step recorder trio noSettings) (fun _ _ => true) s

theorem trio_runs {s t : System (List LogEntry) (List LogEntry)}
    {es : List (Event (List LogEntry))} (h : trioExec s es = some t) :
    Runs (System.step recorder trio noSettings) Always s t :=
  runs_of_exec (fun _ _ _ => trivial) es h

end Runs

section Logs

/-- The entry is in the log of the leader that created it. -/
def Located (a : Abstract) (e : LogEntry) : Prop :=
  ∃ i, e.index = i + 1 ∧ (a.leaderLog e.term)[i]? = some e

theorem Located.mono {e : LogEntry} (h : Located a e) (hg : Grows a a') : Located a' e := by
  obtain ⟨i, hi, he⟩ := h
  exact ⟨i, hi, getElem?_of_isPrefix (hg.leaderLog _) he⟩

theorem Located.eq {x y : LogEntry} (hx : Located a x) (hy : Located a y)
    (hindex : x.index = y.index) (hterm : x.term = y.term) : x = y := by
  obtain ⟨i, hi, hxi⟩ := hx
  obtain ⟨j, hj, hyj⟩ := hy
  have hij : i = j := by omega
  rw [hij, hterm] at hxi
  exact Option.some.inj (hxi.symm.trans hyj)

/-- The entries from index `b + 1` on: up to each of them, they are those of the log of the
leader that created it. -/
def Segment (a : Abstract) (b : ℕ) (es : List LogEntry) : Prop :=
  ∀ {k : ℕ} {e}, es[k]? = some e → ∀ j ≤ k, es[j]? = (a.leaderLog e.term)[b + j]?

theorem Segment.index_eq {b : ℕ} {es : List LogEntry} (h : Segment a b es) (hx : Indexed a)
    {k : ℕ} {e : LogEntry} (he : es[k]? = some e) : e.index = b + k + 1 :=
  hx (by rw [← h he k le_rfl]; exact he)

theorem Segment.located {b : ℕ} {es : List LogEntry} (h : Segment a b es) (hx : Indexed a)
    {e : LogEntry} (he : e ∈ es) : Located a e := by
  obtain ⟨k, hk⟩ := List.getElem?_of_mem he
  exact ⟨b + k, h.index_eq hx hk, by rw [← h hk k le_rfl]; exact hk⟩

theorem Segment.agree {b b' : ℕ} {es es' : List LogEntry} (h : Segment a b es)
    (h' : Segment a b' es') (hx : Indexed a) {e e' x y : LogEntry} (he : e ∈ es) (he' : e' ∈ es')
    (hindex : e.index = e'.index) (hterm : e.term = e'.term) (hxe : x ∈ es) (hye : y ∈ es')
    (hxy : x.index = y.index) (hlt : x.index < e.index) : x = y := by
  obtain ⟨k, hk⟩ := List.getElem?_of_mem he
  obtain ⟨k', hk'⟩ := List.getElem?_of_mem he'
  obtain ⟨j, hj⟩ := List.getElem?_of_mem hxe
  obtain ⟨j', hj'⟩ := List.getElem?_of_mem hye
  have h₁ := h.index_eq hx hk
  have h₂ := h'.index_eq hx hk'
  have h₃ := h.index_eq hx hj
  have h₄ := h'.index_eq hx hj'
  have hxl := h hk j (by omega)
  have hyl := h' hk' j' (by omega)
  rw [hj, hterm, show b + j = b' + j' by omega, ← hyl, hj'] at hxl
  exact Option.some.inj hxl

theorem NodeRel.segment {n : NodeId} {rn : RaftNode D} (h : NodeRel a n rn) (hi : Valid c a) :
    Segment a rn.log.base rn.log.entries := by
  intro k e he j hj
  have hlog : ∀ i, (a.log n)[rn.log.base + i]? = rn.log.entries[i]? := fun i => by
    rw [h.getElem?_above hi (Nat.le_add_right _ _), Nat.add_sub_cancel_left]
  rw [← hlog] at he ⊢
  have hb := h.base
  exact (Invariant.logs hi n).entry_match (by omega) he _ (by omega) (by omega)

theorem AppendRel.segment {args : AppendEntriesArgs} (h : AppendRel a args) (hi : Valid c a) :
    Segment a args.prevLogIndex args.entries := by
  intro k e he j hj
  have hk := lt_of_getElem? he
  rw [h.getElem? hk] at he
  rw [h.getElem? (lt_of_le_of_lt hj hk)]
  exact getElem?_of_take_eq ((Invariant.leaders hi).entry_match he) (by omega)

/-- The entries of a log, or of an append request that may still be delivered. -/
def System.Carries (s : System σ D) (es : List LogEntry) : Prop :=
  (∃ n p, (s.hosts n).proc = some p ∧ es = p.node.log.entries) ∨
    ∃ call ∈ s.calls, ∃ args, call.request = .append args ∧ es = args.entries

theorem Sim.segment {R : Represents M} {fresh : Prop} (h : Sim R c settings fresh s a)
    {es : List LogEntry} (hes : s.Carries es) : ∃ b, Segment a b es := by
  rcases hes with ⟨n, p, hp, rfl⟩ | ⟨call, hc, args, hreq, rfl⟩
  · obtain ⟨_, hrel, _⟩ := h.related (h.member hp) hp
    exact ⟨_, hrel.node.segment h.valid⟩
  · have happ := (h.calls call hc).request
    rw [hreq] at happ
    exact ⟨_, AppendRel.segment happ h.valid⟩

/-- Two logs, or requests on the way, that share an entry agree on it and below it. -/
theorem log_matching (M : StateMachine σ D) (c : ValidCluster) (settings : NodeId → Config)
    {s : System σ D} (hrun : Runs (System.step M c settings) Always System.init s)
    {es es' : List LogEntry} (hes : s.Carries es) (hes' : s.Carries es')
    {e e' : LogEntry} (he : e ∈ es) (he' : e' ∈ es') (hindex : e.index = e'.index)
    (hterm : e.term = e'.term) :
    e.command = e'.command ∧ ∀ x ∈ es, ∀ y ∈ es', x.index = y.index → x.index < e.index →
      x.term = y.term ∧ x.command = y.command := by
  obtain ⟨a, ha⟩ := exists_account hrun
  obtain ⟨b, hb⟩ := ha.segment hes
  obtain ⟨b', hb'⟩ := ha.segment hes'
  have heq := (hb.located ha.indexed he).eq (hb'.located ha.indexed he') hindex hterm
  refine ⟨congrArg LogEntry.command heq, fun x hx y hy hxy hlt => ?_⟩
  rw [hb.agree hb' ha.indexed he he' hindex hterm hx hy hxy hlt]
  exact ⟨rfl, rfl⟩

theorem log_matching_trio :
    ∃ s es es' e e', trioExec System.init (trioElects ++ trioApplies) = some s ∧
      s.Carries es ∧ s.Carries es' ∧ e ∈ es ∧ e' ∈ es' ∧ e.index = 2 ∧ e'.index = 2 ∧
      e.term = e'.term ∧ e.command = e'.command ∧
      ∀ x ∈ es, ∀ y ∈ es', x.index = y.index → x.index < e.index →
        x.term = y.term ∧ x.command = y.command := by
  have hlogs : ((trioExec System.init (trioElects ++ trioApplies)).any fun s =>
      (s.hosts "n2").proc.any (fun p => p.node.log.entries = [⟨1, 1, [7]⟩, ⟨1, 2, [8]⟩]) &&
      decide ((⟨"n1", 1, "n3", .append ⟨1, "n1", 0, 0, [⟨1, 1, [7]⟩, ⟨1, 2, [8]⟩], 0⟩⟩ :
        Call (List LogEntry)) ∈ s.calls)) = true := by decide +kernel
  obtain ⟨s, hs, hlogs⟩ := (Option.any_eq_true _ _).mp hlogs
  obtain ⟨hp, hcall⟩ := Bool.and_eq_true_iff.mp hlogs
  obtain ⟨p, hp, hlog⟩ := (Option.any_eq_true _ _).mp hp
  have hes : s.Carries [⟨1, 1, [7]⟩, ⟨1, 2, [8]⟩] :=
    Or.inl ⟨"n2", p, hp, (of_decide_eq_true hlog).symm⟩
  have hes' : s.Carries [⟨1, 1, [7]⟩, ⟨1, 2, [8]⟩] :=
    Or.inr ⟨_, of_decide_eq_true hcall, _, rfl, rfl⟩
  exact ⟨s, _, _, ⟨1, 2, [8]⟩, ⟨1, 2, [8]⟩, hs, hes, hes', by simp, by simp, rfl, rfl, rfl,
    log_matching recorder trio noSettings (trio_runs hs) hes hes' (by simp) (by simp) rfl rfl⟩

end Logs

section Applied

variable {R : Represents M} {fresh : Prop}

theorem Sim.applied_chosen (h : Sim R c settings fresh s a) {n : NodeId} {inc : ℕ}
    {e : LogEntry} (he : Observation.applied n inc e ∈ s.trace) :
    ∃ i, e.index = i + 1 ∧ a.chosen[i]? = some e := h.trace _ he

theorem Sim.applied_located (h : Sim R c settings fresh s a) {n : NodeId} {inc : ℕ}
    {e : LogEntry} (he : Observation.applied n inc e ∈ s.trace) : Located a e := by
  obtain ⟨i, hi, hch⟩ := h.applied_chosen he
  refine ⟨i, hi, ?_⟩
  rw [← getElem?_of_take_eq (Invariant.chosen_match h.valid hch) (Nat.lt_succ_self i)]
  exact hch

/-- No two state machines are given different entries at one index. -/
theorem Sim.applied_eq (h : Sim R c settings fresh s a) {n m : NodeId} {inc inc' : ℕ}
    {e e' : LogEntry} (he : Observation.applied n inc e ∈ s.trace)
    (he' : Observation.applied m inc' e' ∈ s.trace) (hindex : e'.index = e.index) : e' = e := by
  obtain ⟨i, hi, hch⟩ := h.applied_chosen he
  obtain ⟨j, hj, hch'⟩ := h.applied_chosen he'
  have hij : j = i := by omega
  rw [hij, hch] at hch'
  exact (Option.some.inj hch').symm

theorem Sim.committed_eq (h : Sim R c settings fresh s a) {n m : NodeId} {inc : ℕ}
    {e e' : LogEntry} (he : Observation.applied n inc e ∈ s.trace) {p : Proc σ D}
    (hp : (s.hosts m).proc = some p) {k : ℕ} (hk : p.node.log.entries[k]? = some e')
    (hindex : p.node.log.base + k + 1 = e.index) (hle : e.index ≤ p.node.commitIndex) :
    e' = e := by
  obtain ⟨i, hi, hch⟩ := h.applied_chosen he
  obtain ⟨_, hrel, _⟩ := h.related (h.member hp) hp
  have hlog := hrel.node.getElem?_above h.valid (i := i) (by omega)
  have htake := Invariant.take_commit h.valid m hrel.node.commit.ge
  rw [getElem?_of_take_eq htake (by omega), show i - p.node.log.base = k by omega, hk, hch] at hlog
  exact (Option.some.inj hlog).symm

theorem applied_agree (h : Runs (System.step M c settings) Always System.init s) {n m : NodeId}
    {inc inc' : ℕ} {e e' : LogEntry} (he : Observation.applied n inc e ∈ s.trace)
    (he' : Observation.applied m inc' e' ∈ s.trace) (hindex : e'.index = e.index) : e' = e := by
  obtain ⟨a, ha⟩ := exists_account h
  exact ha.applied_eq he he' hindex

theorem held_applied_eq (hs : Runs (System.step M c settings) Always System.init s)
    (hst : Runs (System.step M c settings) Always s t) {n m : NodeId} {p : Proc σ D}
    (hp : (s.hosts n).proc = some p) {e e' : LogEntry} (he : e ∈ p.node.log.entries) {inc : ℕ}
    (he' : Observation.applied m inc e' ∈ t.trace) (hindex : e'.index = e.index)
    (hterm : e'.term = e.term) : e' = e := by
  obtain ⟨a, ha⟩ := exists_account hs
  obtain ⟨a', hg, ha'⟩ := exists_later_account ha hst
  obtain ⟨b, hb⟩ := ha.segment (Or.inl ⟨n, p, hp, rfl⟩)
  exact (ha'.applied_located he').eq ((hb.located ha.indexed he).mono hg) hindex hterm

/-- State Machine Safety: what some node has applied at an index is what any other applies
there, and what any log holds there once its node knows the index to be committed. -/
theorem state_machine_safety (M : StateMachine σ D) (c : ValidCluster)
    (settings : NodeId → Config) {s : System σ D}
    (hrun : Runs (System.step M c settings) Always System.init s) {n : NodeId} {inc : ℕ}
    {e : LogEntry} (he : Observation.applied n inc e ∈ s.trace) :
    (∀ m inc' e', Observation.applied m inc' e' ∈ s.trace → e'.index = e.index →
      e'.term = e.term ∧ e'.command = e.command) ∧
    ∀ m p k e', (s.hosts m).proc = some p → p.node.log.entries[k]? = some e' →
      p.node.log.base + k + 1 = e.index → e.index ≤ p.node.commitIndex →
      e'.term = e.term ∧ e'.command = e.command := by
  obtain ⟨a, ha⟩ := exists_account hrun
  refine ⟨fun m inc' e' he' hindex => ?_, fun m p k e' hp hk hindex hle => ?_⟩
  · rw [applied_agree hrun he he' hindex]
    exact ⟨rfl, rfl⟩
  · rw [ha.committed_eq he hp hk hindex hle]
    exact ⟨rfl, rfl⟩

theorem state_machine_safety_trio :
    ∃ s e, trioExec System.init (trioElects ++ trioApplies) = some s ∧
      Observation.applied "n1" 1 e ∈ s.trace ∧ Observation.applied "n2" 1 e ∈ s.trace ∧
      (∀ m inc' e', Observation.applied m inc' e' ∈ s.trace → e'.index = e.index →
        e'.term = e.term ∧ e'.command = e.command) ∧
      ∀ m p k e', (s.hosts m).proc = some p → p.node.log.entries[k]? = some e' →
        p.node.log.base + k + 1 = e.index → e.index ≤ p.node.commitIndex →
        e'.term = e.term ∧ e'.command = e.command := by
  have htrace : ((trioExec System.init (trioElects ++ trioApplies)).any fun s =>
      decide (Observation.applied "n1" 1 ⟨1, 2, [8]⟩ ∈ s.trace) &&
      decide (Observation.applied "n2" 1 ⟨1, 2, [8]⟩ ∈ s.trace)) = true := by decide +kernel
  obtain ⟨s, hs, htrace⟩ := (Option.any_eq_true _ _).mp htrace
  obtain ⟨h₁, h₂⟩ := Bool.and_eq_true_iff.mp htrace
  exact ⟨s, ⟨1, 2, [8]⟩, hs, of_decide_eq_true h₁, of_decide_eq_true h₂,
    state_machine_safety recorder trio noSettings (trio_runs hs) (of_decide_eq_true h₁)⟩

end Applied

end Raft
