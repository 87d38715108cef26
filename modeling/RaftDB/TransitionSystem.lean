import Mathlib.Logic.Basic

/-! Labelled transition systems given by a partial step function, with runs that
may restrict the events they take, and the induction rules for safety proofs. -/
namespace TransitionSystem

variable {σ ε α : Type*}

/-- `t` is reached from `s` by events that each satisfy `ok` in the state they start from. -/
inductive Runs (step : σ → ε → Option σ) (ok : σ → ε → Prop) (s : σ) : σ → Prop where
  | refl : Runs step ok s s
  | tail {u v : σ} {e : ε} : Runs step ok s u → ok u e → step u e = some v →
      Runs step ok s v

def Always (_ : σ) (_ : ε) : Prop := True

/-- Execute a finite schedule, checking `ok` before each event. -/
def exec (step : σ → ε → Option σ) (ok : σ → ε → Bool) (s : σ) : List ε → Option σ
  | [] => some s
  | e :: es => if ok s e then (step s e).bind fun u => exec step ok u es else none

variable {step : σ → ε → Option σ} {ok : σ → ε → Prop}

theorem Runs.trans {s t u : σ} (h : Runs step ok s t) (k : Runs step ok t u) :
    Runs step ok s u := by
  induction k with
  | refl => exact h
  | tail _ ho hs ih => exact ih.tail ho hs

theorem Runs.mono {ok' : σ → ε → Prop} (hok : ∀ u e, ok u e → ok' u e) {s t : σ}
    (h : Runs step ok s t) : Runs step ok' s t := by
  induction h with
  | refl => exact .refl
  | tail _ ho hs ih => exact ih.tail (hok _ _ ho) hs

/-- A property that holds at the start and survives every allowed event holds throughout. -/
theorem Runs.invariant {P : σ → Prop} {s t : σ} (h : Runs step ok s t) (h₀ : P s)
    (hstep : ∀ u e v, P u → ok u e → step u e = some v → P v) : P t := by
  induction h with
  | refl => exact h₀
  | tail _ ho hs ih => exact hstep _ _ _ ih ho hs

theorem runs_of_exec {okb : σ → ε → Bool} (hok : ∀ u e, okb u e = true → ok u e)
    (es : List ε) {s t : σ} (h : exec step okb s es = some t) : Runs step ok s t := by
  induction es generalizing s with
  | nil =>
    simp only [exec, Option.some.injEq] at h
    subst h
    exact .refl
  | cons e es ih =>
    simp only [exec] at h
    split at h
    · rename_i hk
      obtain ⟨u, hu, hrest⟩ := Option.bind_eq_some_iff.mp h
      exact (Runs.refl.tail (hok _ _ hk) hu).trans (ih hrest)
    · contradiction

/-- Forward simulation: if each allowed event is matched by abstract progress, so is a run. -/
theorem Runs.simulate {progress : α → α → Prop} (hrefl : ∀ a, progress a a)
    (htrans : ∀ {a b c}, progress a b → progress b c → progress a c) {R : σ → α → Prop}
    {s t : σ} {a : α} (h : Runs step ok s t) (h₀ : R s a)
    (hsim : ∀ u e v b, R u b → ok u e → step u e = some v → ∃ c, progress b c ∧ R v c) :
    ∃ c, progress a c ∧ R t c := by
  induction h with
  | refl => exact ⟨a, hrefl a, h₀⟩
  | tail _ ho hs ih =>
    obtain ⟨b, hab, hb⟩ := ih
    obtain ⟨c, hbc, hc⟩ := hsim _ _ _ _ hb ho hs
    exact ⟨c, htrans hab hbc, hc⟩

end TransitionSystem
