import Mathlib.Tactic.TypeStar

/-!
# Runs of labelled steps

The runs of a step relation, with the labels of their steps in order, and forward simulation: steps
that another relation matches, label by label, make runs that it matches.
-/

namespace PineForge

variable {σ τ ε : Type*} {step : σ → ε → σ → Prop} {s t : σ} {a : τ} {events : List ε}

/-- Runs of a step relation. -/
inductive Runs (step : σ → ε → σ → Prop) (s : σ) : List ε → σ → Prop
  | nil : Runs step s [] s
  | snoc {events : List ε} {t u : σ} {e : ε} : Runs step s events t → step t e u →
    Runs step s (events ++ [e]) u

namespace Runs

theorem simulates (spec : τ → ε → τ → Prop) {R : σ → τ → Prop}
    (hstep : ∀ {s e t} {a : τ}, R s a → step s e t → ∃ b, spec a e b ∧ R t b)
    (h : Runs step s events t) (hs : R s a) :
    ∃ b, Runs spec a events b ∧ R t b := by
  induction h with
  | nil => exact ⟨a, .nil, hs⟩
  | snoc _ he ih =>
    obtain ⟨b, hb, hR⟩ := ih
    obtain ⟨b', he', hR'⟩ := hstep hR he
    exact ⟨b', .snoc hb he', hR'⟩

end Runs

end PineForge
