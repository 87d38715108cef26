import RaftDB.RaftCommitted
import RaftDB.RaftWrites

/-!
# Where entries come from

`Propose` gives an entry an index that no entry of the term had before, so it can only be chosen
behind everything that was chosen by then. An entry in a log, in a file, in a request or among the
committed ones has been proposed: handlers copy entries, and nothing else makes one.
-/
namespace Raft

open Storage ClusterConfig ReplicatedLog LogPrefix TransitionSystem
open RaftNode hiding id

variable {σ D : Type}

section Assignment

variable {M : StateMachine σ D} {R : Represents M} {c : ValidCluster} {settings : NodeId → Config}
  {fresh : Prop} {s t : System σ D} {a a' : Abstract} {n : NodeId} {command : List UInt8}
  {index term : ℕ}

theorem propose_assigns {rn rn' : RaftNode D}
    (h : (rn.propose command).result = .ok (rn', some (index, term))) :
    rn.state = .leader ∧ term = rn.currentTerm ∧ index = rn.log.lastLogIndex + 1 := by
  rw [propose, proposeAt] at h
  split at h
  · cases h
  rename_i hlead
  dsimp only at h
  split at h
  · cases h
  · cases h
    exact ⟨not_not.mp hlead, rfl, rfl⟩

theorem propose_returns {rn : RaftNode D} (hw : rn.Wf) (command : List UInt8) :
    ∃ rn' r, (rn.propose command).result = .ok (rn', r) ∧
      (rn.state = .leader → r = some (rn.log.lastLogIndex + 1, rn.currentTerm)) := by
  by_cases hlead : rn.state = .leader
  · have hn : (rn.appendLogLocked
        [⟨rn.currentTerm, rn.log.lastLogIndex + 1, command⟩]).1.log.Numbered :=
      hw.numbered.append ⟨rfl, trivial⟩
    obtain ⟨m, hadv, _⟩ := advanceCommitIndexLocked_cases hn hw.base_le
    rw [propose, proposeAt, if_neg (by simp [hlead])]
    dsimp only
    rw [hadv]
    exact ⟨_, _, rfl, fun _ => rfl⟩
  · rw [propose, proposeAt, if_pos hlead]
    exact ⟨_, _, rfl, fun h => absurd h hlead⟩

theorem run_returns (hrun : Runs (System.step M c settings) Always System.init s)
    {out : Option (Output D)} (h : s.run M n (.propose command) = some (t, out)) :
    ∃ p r, (s.hosts n).proc = some p ∧ out = some (.proposed r) ∧
      (p.node.state = .leader → r = some (p.node.log.lastLogIndex + 1, p.node.currentTerm)) := by
  obtain ⟨p, o, hp, ho, rfl, rfl⟩ := run_cases h
  obtain ⟨a, ha⟩ := exists_account hrun
  obtain ⟨halive, _, _⟩ := ha.related (ha.member hp) hp
  obtain ⟨rn', r, hres, hlead⟩ := propose_returns halive.live.wf command
  refine ⟨p, r, hp, ?_, hlead⟩
  cases ho
  rw [StepOutcome.output, Proc.locked, hres]

theorem run_assigns
    (h : s.run M n (.propose command) = some (t, some (.proposed (some (index, term))))) :
    ∃ p, (s.hosts n).proc = some p ∧ p.node.state = .leader ∧ term = p.node.currentTerm ∧
      index = p.node.log.lastLogIndex + 1 := by
  obtain ⟨p, o, hp, ho, rfl, hout⟩ := run_cases h
  refine ⟨p, hp, ?_⟩
  rw [StepOutcome.output] at hout
  split at hout
  · cases hout
  rename_i p' out hres
  cases hout
  cases Proc.handled ho hres with
  | proposed hprop => exact propose_assigns hprop

theorem Sim.proposed_next (h : Sim R c settings fresh s a)
    (hx : s.run M n (.propose command) = some (t, some (.proposed (some (index, term))))) :
    index = (a.leaderLog term).length + 1 := by
  obtain ⟨p, hp, hlead, rfl, rfl⟩ := run_assigns hx
  obtain ⟨_, hrel, _⟩ := h.related (h.member hp) hp
  have hrole : a.role n = .leader := by rw [hrel.node.role, hlead]; rfl
  have hlog := ((Invariant.roles h.valid n).leader hrole).2.1
  rw [← hrel.node.term, ← hlog, hrel.node.length h.valid hrel.wf.numbered]

/-- What its leader has not created yet is not chosen before anything that is chosen now. -/
theorem chosen_beyond (hv : Valid c a) (hg : Grows a a') {i : ℕ} {e : LogEntry}
    (he : a'.chosen[i]? = some e) (hnew : (a.leaderLog e.term).length ≤ i) :
    a.chosen.length ≤ i := by
  by_contra hlt
  have hi : i < a.chosen.length := not_le.mp hlt
  have hnow : a.chosen[i]? = some e := by
    rw [← he, getElem?_of_isPrefix hg.chosen (List.getElem?_eq_getElem hi),
      List.getElem?_eq_getElem hi]
  have hleader : (a.leaderLog e.term)[i]? = some e := by
    rw [← hnow]
    exact (getElem?_of_take_eq (Invariant.chosen_match hv hnow) (Nat.lt_succ_self i)).symm
  exact absurd (lt_of_getElem? hleader) (not_lt.mpr hnew)

end Assignment

section Writes

variable {M : StateMachine σ D} {p : Proc σ D} {i : Input D} {o : StepOutcome σ D}
  {rn : RaftNode D} {e : LogEntry} {w : StoreWrite D}

theorem outboundTo_entries {term : ℕ} {peer target : NodeId} {args : AppendEntriesArgs}
    (h : rn.outboundTo term peer = some (.append target args)) (he : e ∈ args.entries) :
    e ∈ rn.log.entries := by
  rw [outboundTo] at h
  dsimp only at h
  split at h
  · cases h
  rename_i hb
  obtain ⟨k, hk⟩ : ∃ k, rn.nextIndex peer - rn.log.base = k + 1 :=
    ⟨rn.nextIndex peer - rn.log.base - 1, by omega⟩
  split at h
  · rename_i entries _ hfrom
    cases h
    rw [RaftLog.entriesFrom, uint64Sub_of_le (not_le.mp hb).le, hk] at hfrom
    split at hfrom <;> cases hfrom
    rw [RaftLog.slots, List.drop_succ_cons] at he
    exact List.mem_of_mem_drop he
  · cases h

end Writes

section Cluster

variable {M : StateMachine σ D} {c : ValidCluster} {settings : NodeId → Config}
  {s t : System σ D} {P Q : LogEntry → Prop} {n : NodeId} {p : Proc σ D}

/-- Every entry that is on file, on its way or committed satisfies `P`. -/
structure System.Sourced (P : LogEntry → Prop) (s : System σ D) : Prop where
  files : ∀ {n e}, .append e ∈ (s.hosts n).disk.wal → P e
  requests : ∀ {call args e}, call ∈ s.calls → call.request = .append args → e ∈ args.entries → P e
  committed : ∀ {m term snap log ci e}, Observation.committed m term snap log ci ∈ s.trace →
    e ∈ log.entries → P e

theorem System.sourced_init : (System.init : System σ D).Sourced P :=
  ⟨(nomatch ·), (nomatch ·), (nomatch ·)⟩

theorem System.Sourced.set_host (h : s.Sourced P) {host : Host σ D}
    (hdisk : host.disk = (s.hosts n).disk) :
    System.Sourced P { s with hosts := Function.update s.hosts n host } := by
  refine ⟨?_, h.requests, h.committed⟩
  intro m e he
  by_cases hm : m = n
  · subst hm
    simp only [Function.update_self, hdisk] at he
    exact h.files he
  · simp only [Function.update_of_ne hm] at he
    exact h.files he

theorem System.Sourced.mono (h : s.Sourced P) (hpq : ∀ {e}, P e → Q e) : s.Sourced Q :=
  ⟨fun he => hpq (h.files he), fun hc hreq he => hpq (h.requests hc hreq he),
    fun hob he => hpq (h.committed hob he)⟩

structure Admits (P : LogEntry → Prop) (p : Proc σ D) (i : Input D) : Prop where
  request : ∀ {e}, e ∈ i.entries → P e
  proposal : ∀ {command}, i = .propose command → p.node.state = .leader →
    P ⟨p.node.currentTerm, p.node.log.lastLogIndex + 1, command⟩

theorem System.Sourced.settle (h : s.Sourced P) {cfg : Config}
    (hlive : Live cfg (s.hosts n).disk p) {i : Input D} (hi : i.Numbered) {o : StepOutcome σ D}
    (ho : p.handle M i = some o) (hP : Admits P p i) : (s.settle n p o).Sourced P := by
  have hlog : ∀ {e}, e ∈ p.node.log.entries → P e := fun he =>
    h.files (hlive.mirrors.mem_wal he)
  have hfile : ∀ {e}, .append e ∈ ((s.hosts n).disk.writeAll o.writes).wal → P e := by
    intro e he
    rcases mem_writeAll he with hold | ⟨w, hw, he⟩
    · exact h.files hold
    rcases p.handle_writes hlive.wf hlive.applier ho hw he with hin | hin | ⟨_, hprop, hlead, rfl⟩
    · exact hlog hin
    · exact hP.request hin
    · exact hP.proposal hprop hlead
  refine ⟨?_, ?_, ?_⟩
  · intro m e he
    by_cases hm : m = n
    · rw [hm, settle_disk] at he
      exact hfile he
    · rw [settle_host_of_ne hm] at he
      exact h.files he
  · intro call args e hc hreq he
    rcases settle_new_call hc with hc | ⟨p', out, hres, hc⟩
    · exact h.requests hc hreq he
    · cases (Proc.handled ho hres).calls hlive.wf hlive.applier hc with
      | vote _ hvote =>
        rw [hreq] at hvote
        cases hvote
      | append peer target args' happ _ hout =>
        rw [hreq] at happ
        cases happ
        exact hlog (outboundTo_entries hout he)
  · intro m term snap log ci e hob he
    cases traced_of_settle hob with
    | old hold => exact h.committed hold he
    | committed p' out snap hres =>
      have hlive' := (hlive.acts (p.handle_cases hlive.wf hi ho)).2 _ hres
      exact hfile (hlive'.mirrors.mem_wal he)

theorem Request.input_ne_propose (request : Request D) (command : List UInt8) :
    request.input ≠ .propose command := by
  cases request <;> rintro ⟨⟩

/-- Entries are only copied around, but for what `Propose` appends. -/
theorem System.Sourced.step (h : s.Sourced P)
    (hrun : Runs (System.step M c settings) Always System.init s) {e : Event D}
    (hst : s.step M c settings e = some t)
    (hnew : ∀ n command p, e = .act n (.propose command) → (s.hosts n).proc = some p →
      p.node.state = .leader →
        P ⟨p.node.currentTerm, p.node.log.lastLogIndex + 1, command⟩) : t.Sourced P := by
  have hran : ∀ {n i u out}, s.inputOf e = some (n, i) → s.run M n i = some (u, out) →
      (∀ {x}, x ∈ i.entries → P x) → (∀ command, i = .propose command → e = .act n i) →
      u.Sourced P := by
    intro n i u out hin hx hreq hown
    obtain ⟨p, o, hp, ho, rfl, _⟩ := run_cases hx
    obtain ⟨a, ha⟩ := exists_account hrun
    obtain ⟨halive, _, _⟩ := ha.related (ha.member hp) hp
    refine h.settle halive.live (inputs_numbered hrun hst hin) ho ⟨hreq, ?_⟩
    rintro command rfl hlead
    exact hnew n command p (hown command rfl) hp hlead
  have hdelivered : ∀ {call : Call D}, call ∈ s.calls →
      ∀ {x}, x ∈ call.request.input.entries → P x := by
    intro call hc x hx
    cases hreq : call.request with
    | append args =>
      rw [hreq] at hx
      exact h.requests hc hreq hx
    | vote args | snapshot args =>
      rw [hreq] at hx
      cases hx
  cases stepped_of_step hst with
  | boot | crash => exact h.set_host rfl
  | act n i t out hi hx =>
    refine hran rfl hx ?_ fun _ _ => rfl
    cases i with
    | appendEntries args => cases hi
    | _ =>
      intro x hx
      cases hx
  | unsaved j task _ _ => exact ⟨h.files, h.requests, h.committed⟩
  | loaded j task p snap _ _ _ _ =>
    refine ⟨h.files, ?_, h.committed⟩
    intro call args x hc hreq hx
    rcases List.mem_append.mp hc with hc | hc
    · exact h.requests hc hreq hx
    · rw [List.mem_singleton.mp hc] at hreq
      cases hreq
  | ignored k call t out hk hx _ =>
    exact hran (inputOf_deliver hk) hx (hdelivered (List.mem_of_getElem? hk))
      fun command hi => absurd hi (call.request.input_ne_propose command)
  | answered k call u out reply hk hx _ =>
    have hu := hran (inputOf_deliver hk) hx (hdelivered (List.mem_of_getElem? hk))
      fun command hi => absurd hi (call.request.input_ne_propose command)
    exact ⟨hu.files, hu.requests, hu.committed⟩
  | received j k reply call i u out hj hk _ _ hi hx =>
    have hreply : i.entries = [] ∧ ∀ command, i ≠ .propose command := by
      cases reply <;> rw [Call.input] at hi <;> split at hi <;> cases hi <;>
        exact ⟨rfl, by rintro _ ⟨⟩⟩
    have hu := hran (inputOf_receive hj hk hi) hx (by simp [hreply.1])
      fun command heq => absurd heq (hreply.2 command)
    exact ⟨hu.files, hu.requests, hu.committed⟩

end Cluster

end Raft
