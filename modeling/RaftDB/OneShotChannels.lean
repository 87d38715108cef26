import Mathlib.Logic.Function.Basic
import Mathlib.Data.List.Nodup

/-!
# Channels that are sent on once

A channel comes with one right to send on it. The right is held by one holder at a time, such as
a slot of a table or a running thread; it may be handed on or dropped, and it is used up by the
send. Then no channel is sent on twice, and whoever holds the right finds the channel unused.
-/
namespace OneShot

open Function

/-- Which channel each holder may send on, and the channels that were sent on. -/
structure Rights (η κ : Type*) where
  holds : η → Option κ
  sent : List κ

namespace Rights

variable {η κ : Type*} {r : Rights η κ} {a b : η} {k l : κ}

/-- Nobody can send on the channel, and nobody has. -/
def Free (r : Rights η κ) (k : κ) : Prop := (∀ a, r.holds a ≠ some k) ∧ k ∉ r.sent

structure Unique (r : Rights η κ) : Prop where
  holder : ∀ {a b k}, r.holds a = some k → r.holds b = some k → a = b
  unsent : ∀ {a k}, r.holds a = some k → k ∉ r.sent
  once : r.sent.Nodup

def spend (r : Rights η κ) (k : κ) : Rights η κ := { r with sent := k :: r.sent }

theorem Unique.spend (h : r.Unique) (hk : r.Free k) : (r.spend k).Unique := by
  constructor
  · exact h.holder
  · intro b l hb hl
    rcases List.mem_cons.mp hl with rfl | hl
    · exact hk.1 b hb
    · exact h.unsent hb hl
  · exact List.nodup_cons.mpr ⟨hk.2, h.once⟩

theorem Free.spend (h : r.Free k) (hne : k ≠ l) : (r.spend l).Free k := by
  refine ⟨h.1, ?_⟩
  intro hk
  rcases List.mem_cons.mp hk with heq | hk
  · exact hne heq
  · exact h.2 hk

variable [DecidableEq η]

def release (r : Rights η κ) (a : η) : Rights η κ := { r with holds := update r.holds a none }

def grant (r : Rights η κ) (a : η) (k : κ) : Rights η κ :=
  { r with holds := update r.holds a (some k) }

theorem holds_release (h : (r.release a).holds b = some k) : b ≠ a ∧ r.holds b = some k := by
  by_cases hb : b = a
  · subst hb
    simp [release] at h
  · simp only [release, update_of_ne hb] at h
    exact ⟨hb, h⟩

theorem holds_grant (h : (r.grant a k).holds b = some l) :
    b = a ∧ l = k ∨ b ≠ a ∧ r.holds b = some l := by
  by_cases hb : b = a
  · subst hb
    simp only [grant, update_self, Option.some.injEq] at h
    exact Or.inl ⟨rfl, h.symm⟩
  · simp only [grant, update_of_ne hb] at h
    exact Or.inr ⟨hb, h⟩

theorem Unique.release (h : r.Unique) (a : η) : (r.release a).Unique := by
  constructor
  · intro b c k hb hc
    exact h.holder (holds_release hb).2 (holds_release hc).2
  · intro b k hb
    exact h.unsent (holds_release hb).2
  · exact h.once

theorem Unique.free_release (h : r.Unique) (ha : r.holds a = some k) : (r.release a).Free k := by
  constructor
  · intro b hb
    obtain ⟨hne, hb⟩ := holds_release hb
    exact hne (h.holder hb ha)
  · exact h.unsent ha

theorem Unique.grant (h : r.Unique) (hk : r.Free k) (a : η) : (r.grant a k).Unique := by
  constructor
  · intro b c l hb hc
    rcases holds_grant hb with ⟨hba, rfl⟩ | ⟨_, hbr⟩
    · rcases holds_grant hc with ⟨hca, _⟩ | ⟨_, hcr⟩
      · rw [hba, hca]
      · exact absurd hcr (hk.1 c)
    · rcases holds_grant hc with ⟨_, rfl⟩ | ⟨_, hcr⟩
      · exact absurd hbr (hk.1 b)
      · exact h.holder hbr hcr
  · intro b l hb
    rcases holds_grant hb with ⟨_, rfl⟩ | ⟨_, hb⟩
    · exact hk.2
    · exact h.unsent hb
  · exact h.once

theorem Free.release (h : r.Free k) (a : η) : (r.release a).Free k :=
  ⟨fun b hb => h.1 b (holds_release hb).2, h.2⟩

theorem Free.grant (h : r.Free k) (hne : k ≠ l) (a : η) : (r.grant a l).Free k := by
  refine ⟨?_, h.2⟩
  intro b hb
  rcases holds_grant hb with ⟨_, heq⟩ | ⟨_, hb⟩
  · exact hne heq
  · exact h.1 b hb

end Rights

end OneShot
