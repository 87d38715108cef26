import Mathlib.Data.Finset.Card

/-! Families of sets any two of which meet, and the strict majorities of a finite set. -/
namespace MajorityQuorum

variable {N : Type*} [DecidableEq N]

structure QuorumSystem (N : Type*) where
  IsQuorum : Finset N → Prop
  meets : ∀ {P Q : Finset N}, IsQuorum P → IsQuorum Q → ∃ n, n ∈ P ∧ n ∈ Q

theorem majorities_meet {members P Q : Finset N} (hP : P ⊆ members) (hQ : Q ⊆ members)
    (hp : members.card / 2 + 1 ≤ P.card) (hq : members.card / 2 + 1 ≤ Q.card) :
    ∃ n, n ∈ P ∧ n ∈ Q := by
  by_contra hne
  have hdisj : Disjoint P Q := by
    rw [Finset.disjoint_left]
    intro n hnP hnQ
    exact hne ⟨n, hnP, hnQ⟩
  have hcard := Finset.card_le_card (Finset.union_subset hP hQ)
  rw [Finset.card_union_of_disjoint hdisj] at hcard
  omega

/-- The strict majorities of `members`. -/
def majority (members : Finset N) : QuorumSystem N where
  IsQuorum Q := Q ⊆ members ∧ members.card / 2 + 1 ≤ Q.card
  meets hP hQ := majorities_meet hP.1 hQ.1 hP.2 hQ.2

end MajorityQuorum
