import RaftDB.ReplicatedLogTransfer
import Mathlib.Logic.Relation

/-!
# Histories only grow

What was voted, won, confirmed or chosen stays so, whoever moves next, and a node's own
state changes by its own moves only. Facts about messages rest on these two alone.
-/
namespace ReplicatedLog

open MajorityQuorum LogPrefix Function

variable {N E : Type*} {tm : E → ℕ} {qs : QuorumSystem N} {s s' s'' : State N E} {v w : N}

structure Grows (s s' : State N E) : Prop where
  term : ∀ w, s.term w ≤ s'.term w
  voted : ∀ {w U c}, s.voted w U = some c → s'.voted w U = some c
  candidacy : ∀ {c U r}, s.candidacy c U = some r → s'.candidacy c U = some r
  winner : ∀ {U c}, s.winner U = some c → s'.winner U = some c
  inherited : ∀ {U}, s.winner U ≠ none → s'.inherited U = s.inherited U
  leaderLog : ∀ U, s.leaderLog U <+: s'.leaderLog U
  confirmed : ∀ w T, s.confirmed w T ≤ s'.confirmed w T
  chosen : s.chosen <+: s'.chosen
  commits : s.commits ⊆ s'.commits
  stale : s.stale → s'.stale

structure Untouched (v : N) (s s' : State N E) : Prop where
  term : s'.term v = s.term v
  role : s'.role v = s.role v
  log : s'.log v = s.log v
  base : s'.base v = s.base v
  commit : s'.commit v = s.commit v
  voted : s'.voted v = s.voted v
  candidacy : s'.candidacy v = s.candidacy v
  confirmed : s'.confirmed v = s.confirmed v

theorem Grows.refl (s : State N E) : Grows s s :=
  ⟨fun _ => le_rfl, id, id, id, fun _ => rfl, fun _ => List.prefix_refl _, fun _ _ => le_rfl,
    List.prefix_refl _, fun _ => id, id⟩

theorem Grows.trans (h : Grows s s') (k : Grows s' s'') : Grows s s'' where
  term w := (h.term w).trans (k.term w)
  voted hv := k.voted (h.voted hv)
  candidacy hc := k.candidacy (h.candidacy hc)
  winner hw := k.winner (h.winner hw)
  inherited {U} hU := by
    obtain ⟨c, hc⟩ := Option.ne_none_iff_exists'.mp hU
    exact (k.inherited (by simp [h.winner hc])).trans (h.inherited hU)
  leaderLog U := (h.leaderLog U).trans (k.leaderLog U)
  confirmed w T := (h.confirmed w T).trans (k.confirmed w T)
  chosen := h.chosen.trans k.chosen
  commits := fun _ hcm => k.commits (h.commits hcm)
  stale hs := k.stale (h.stale hs)

theorem Grows.won (h : Grows s s') {U : ℕ} (hU : s.winner U ≠ none) : s'.winner U ≠ none := by
  obtain ⟨c, hc⟩ := Option.ne_none_iff_exists'.mp hU
  simp [h.winner hc]

theorem Grows.covered (h : Grows s s') {P : ℕ → Prop} {n : ℕ} (hc : CoveredBy s P n) :
    CoveredBy s' P n :=
  hc.mono h.commits (fun _ hp => hp) le_rfl

theorem Untouched.refl (v : N) (s : State N E) : Untouched v s s :=
  ⟨rfl, rfl, rfl, rfl, rfl, rfl, rfl, rfl⟩

theorem Untouched.trans (h : Untouched v s s') (k : Untouched v s' s'') : Untouched v s s'' :=
  ⟨k.term.trans h.term, k.role.trans h.role, k.log.trans h.log, k.base.trans h.base,
    k.commit.trans h.commit, k.voted.trans h.voted, k.candidacy.trans h.candidacy,
    k.confirmed.trans h.confirmed⟩

theorem Grows.of_knowledge {role : N → Role} {base commit : N → ℕ} :
    Grows s { s with role := role, base := base, commit := commit } :=
  ⟨fun _ => le_rfl, id, id, id, fun _ => rfl, fun _ => List.prefix_refl _, fun _ _ => le_rfl,
    List.prefix_refl _, fun _ => id, id⟩

/-- Unless something stale was installed, what a node knows to be committed is part of the
log of its term's leader. -/
theorem Invariant.fresh_commit (h : Invariant tm qs s) (hf : ¬s.stale)
    (hwon : s.winner (s.term w) ≠ none) :
    (s.log w).take (s.commit w) = (s.leaderLog (s.term w)).take (s.commit w) :=
  (h.take_commit w le_rfl).trans (h.covered_take hwon (h.fresh_cover hf w))

variable [DecidableEq N]

theorem Invariant.stand_grows (h : Invariant tm qs s) (c : N) : Grows s (s.stood c) where
  term := le_update (Nat.le_succ _)
  voted {w U d} hv := by
    have hU := h.votes.vote_term hv
    have hne : ¬(w = c ∧ U = s.term c + 1) := by
      rintro ⟨rfl, rfl⟩
      omega
    simp only [State.stood, update₂_apply, if_neg hne]
    exact hv
  candidacy {d U r} hr := by
    have hU := h.votes.candidacy_term hr
    have hne : ¬(d = c ∧ U = s.term c + 1) := by
      rintro ⟨rfl, rfl⟩
      omega
    simp only [State.stood, update₂_apply, if_neg hne]
    exact hr
  winner := id
  inherited _ := rfl
  leaderLog _ := List.prefix_refl _
  confirmed _ _ := le_rfl
  chosen := List.prefix_refl _
  commits _ := id
  stale := id

theorem grant_grows {c : N} (hfree : s.voted w (s.term w) = none ∨
    s.voted w (s.term w) = some c) : Grows s (s.granted w c) where
  term _ := le_rfl
  voted {v U d} hv := by
    simp only [State.granted, update₂_apply]
    split
    · rename_i heq
      obtain ⟨rfl, rfl⟩ := heq
      rw [← hv]
      exact (hfree.resolve_left (by simp [hv])).symm
    · exact hv
  candidacy := id
  winner := id
  inherited _ := rfl
  leaderLog _ := List.prefix_refl _
  confirmed _ _ := le_rfl
  chosen := List.prefix_refl _
  commits _ := id
  stale := id

theorem Invariant.elect_grows (h : Invariant tm qs s) {c : N} {Q : Finset N}
    (hrole : s.role c = .candidate) (hQ : qs.IsQuorum Q)
    (hv : ∀ w ∈ Q, s.voted w (s.term c) = some c) : Grows s (s.elected c Q) := by
  have hun := h.elect_unwon hrole hQ hv
  have hconf : s.confirmed c (s.term c) = 0 := by
    have := h.confirmed_length c (s.term c)
    rw [h.leaders.unwon hun] at this
    exact Nat.le_zero.mp this
  have hne : ∀ {U}, s.winner U ≠ none → U ≠ s.term c := by
    rintro U hU rfl
    exact hU hun
  refine ⟨fun _ => le_rfl, id, id, ?_, ?_, ?_, ?_, List.prefix_refl _, fun _ => id, id⟩
  · intro U d hd
    simp only [State.elected]
    rw [update_of_ne (hne (by simp [hd]))]
    exact hd
  · intro U hU
    simp only [State.elected]
    rw [update_of_ne (hne hU)]
  · exact h.elected_leaderLog hun
  · intro w T
    simp only [State.elected, update₂_apply]
    split
    · rename_i heq
      obtain ⟨rfl, rfl⟩ := heq
      omega
    · exact le_rfl

theorem Invariant.propose_grows (h : Invariant tm qs s) {c : N} (hrole : s.role c = .leader)
    (e : E) : Grows s (s.proposed c e) := by
  obtain ⟨_, hlog, hconf⟩ := (h.roles c).leader hrole
  refine ⟨fun _ => le_rfl, id, id, id, fun _ => rfl, ?_, ?_, List.prefix_refl _, fun _ => id, id⟩
  · exact proposed_leaderLog_isPrefix hlog
  · intro w T
    rw [proposed_confirmed]
    split
    · rename_i heq
      obtain ⟨rfl, rfl⟩ := heq
      rw [hconf, hlog]
      omega
    · exact le_rfl

theorem accept_grows (w : N) (n : ℕ) (l : List E) : Grows s (s.accepted w n l) :=
  ⟨fun _ => le_rfl, id, id, id, fun _ => rfl, fun _ => List.prefix_refl _, le_accepted_confirmed,
    List.prefix_refl _, fun _ => id, id⟩

theorem commitSecure_grows {c : N} {i : ℕ} {Q : Finset N}
    (hcmp : upTo s (s.term c) i <+: s.chosen ∨ s.chosen <+: upTo s (s.term c) i)
    (ho : Own tm s (s.term c) i) : Grows s (s.committed c i Q) :=
  ⟨fun _ => le_rfl, id, id, id, fun _ => rfl, fun _ => List.prefix_refl _, fun _ _ => le_rfl,
    (ho.committed_grows hcmp).1, fun _ => Set.mem_insert_of_mem _, id⟩

theorem Step.grows (hs : Step tm qs w s s') (h : Invariant tm qs s) : Grows s s' := by
  cases hs with
  | observe _ _ t ht =>
    exact ⟨le_update ht.le, id, id, id, fun _ => rfl, fun _ => List.prefix_refl _,
      fun _ _ => le_rfl, List.prefix_refl _, fun _ => id, id⟩
  | relax => exact .of_knowledge
  | stand => exact h.stand_grows w
  | grant _ _ c r _ hfree _ => exact grant_grows hfree
  | elect _ _ Q hrole hQ hv => exact h.elect_grows hrole hQ hv
  | propose _ _ e hrole _ => exact h.propose_grows hrole e
  | accept _ _ prev n l => exact accept_grows w n l
  | learn => exact .of_knowledge
  | install =>
    exact ⟨fun _ => le_rfl, id, id, id, fun _ => rfl, fun _ => List.prefix_refl _,
      fun _ _ => le_rfl, List.prefix_refl _, fun _ => id, Or.inl⟩
  | commitSecure _ _ i Q _ _ _ _ ho _ hcmp => exact commitSecure_grows hcmp ho
  | commitCovered => exact .of_knowledge
  | compact => exact .of_knowledge

theorem Step.untouched (hs : Step tm qs w s s') (hv : v ≠ w) : Untouched v s s' := by
  cases hs <;> constructor <;>
    simp [hv, State.stood, State.granted, State.elected, State.proposed, State.accepted,
      State.installed, State.committed]

variable (tm qs) in
def Acts (w : N) : State N E → State N E → Prop := Relation.ReflTransGen (Step tm qs w)

theorem Acts.refl (w : N) (s : State N E) : Acts tm qs w s s := Relation.ReflTransGen.refl

theorem Acts.single (hs : Step tm qs w s s') : Acts tm qs w s s' :=
  Relation.ReflTransGen.single hs

theorem Acts.trans (h : Acts tm qs w s s') (k : Acts tm qs w s' s'') : Acts tm qs w s s'' :=
  Relation.ReflTransGen.trans h k

theorem Acts.invariant (ha : Acts tm qs w s s') (h : Invariant tm qs s) : Invariant tm qs s' := by
  induction ha with
  | refl => exact h
  | tail _ hs ih => exact hs.invariant ih

theorem Acts.grows (ha : Acts tm qs w s s') (h : Invariant tm qs s) : Grows s s' := by
  induction ha with
  | refl => exact .refl s
  | tail hpre hs ih => exact ih.trans (hs.grows (Acts.invariant hpre h))

theorem Acts.untouched (ha : Acts tm qs w s s') (hv : v ≠ w) : Untouched v s s' := by
  induction ha with
  | refl => exact .refl v s
  | tail _ hs ih => exact ih.trans (hs.untouched hv)

variable (tm qs) in
def Evolves : State N E → State N E → Prop :=
  Relation.ReflTransGen fun s s' => ∃ w, Step tm qs w s s'

theorem Evolves.refl (s : State N E) : Evolves tm qs s s := Relation.ReflTransGen.refl

theorem Evolves.trans (h : Evolves tm qs s s') (k : Evolves tm qs s' s'') :
    Evolves tm qs s s'' :=
  Relation.ReflTransGen.trans h k

theorem Acts.evolves (ha : Acts tm qs w s s') : Evolves tm qs s s' :=
  Relation.ReflTransGen.mono (fun _ _ hs => ⟨w, hs⟩) _ _ ha

theorem Evolves.invariant (ha : Evolves tm qs s s') (h : Invariant tm qs s) :
    Invariant tm qs s' := by
  induction ha with
  | refl => exact h
  | tail _ hs ih =>
    obtain ⟨w, hs⟩ := hs
    exact hs.invariant ih

theorem Evolves.grows (ha : Evolves tm qs s s') (h : Invariant tm qs s) : Grows s s' := by
  induction ha with
  | refl => exact .refl s
  | tail hpre hs ih =>
    obtain ⟨w, hs⟩ := hs
    exact ih.trans (hs.grows (Evolves.invariant hpre h))

theorem Evolves.keeps {P : State N E → Prop} (ha : Evolves tm qs s s') (h : Invariant tm qs s)
    (hf : ¬s'.stale) (h₀ : P s)
    (hstep : ∀ {w x y}, Invariant tm qs x → ¬y.stale → P x → Step tm qs w x y → P y) : P s' := by
  induction ha with
  | refl => exact h₀
  | tail hpre hs ih =>
    obtain ⟨w, hs⟩ := hs
    have hi := Evolves.invariant hpre h
    exact hstep hi hf (ih fun hst => hf ((hs.grows hi).stale hst)) hs

/-- What a quorum has confirmed in the leader's own term, the leader may commit: either the
position is secured, or it is chosen already, which only a stale install can cause. -/
theorem Invariant.leader_commits (h : Invariant tm qs s) {c : N} {i : ℕ} {Q : Finset N}
    (hrole : s.role c = .leader) (hc : s.commit c ≤ i) (hQ : qs.IsQuorum Q)
    (hconf : ∀ w ∈ Q, i < s.confirmed w (s.term c)) (ho : Own tm s (s.term c) i) :
    ∃ s', Step tm qs c s s' ∧
      (s' = s.committed c i Q ∨ s.stale ∧ s' = { s with commit := update s.commit c (i + 1) }) := by
  have hcommittable : Committable qs s (s.term c) i := ⟨Q, hQ, fun w hw => Or.inl (hconf w hw)⟩
  rcases h.committable ho hcommittable with ⟨hstale, hch⟩ | hsec
  · obtain ⟨e, he, _⟩ := ho
    have hlen : i < (s.log c).length := by
      rw [((h.roles c).leader hrole).2.1]
      exact lt_of_getElem? he
    exact ⟨_, .commitCovered s c i hrole hc hlen hstale hch, Or.inr ⟨hstale, rfl⟩⟩
  · exact ⟨_, .commitSecure s c i Q hrole hc hQ hconf ho hsec (h.chosen_comparable ho hsec),
      Or.inl rfl⟩

end ReplicatedLog
