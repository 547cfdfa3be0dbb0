import Calisto.Lib.Machine

/-!
# Simulations

A machine follows another one along a relation between their states, if every step of the other one is answered by some
steps that lead back into the relation (`Reach.follow`).
-/

namespace Machine

variable {σ α σ' α' : Type*} {step : σ → α → Option σ} {G : σ → α → Prop} {step' : σ' → α' → Option σ'}
  {G' : σ' → α' → Prop} {s₀ s : σ} {r₀ : σ'} {R : σ → σ' → Prop}

/-- The answer of one step to one step. -/
theorem answer {r : σ'} {a : α} {a' : α'} {t : σ} (h : Option.Rel R (step s a) (step' r a')) (ha : step s a = some t)
    (hg : G' r a') : ∃ u, Reach step' G' r u ∧ R t u := by
  rw [ha] at h
  generalize hu : step' r a' = u at h
  cases h with
  | some hR => exact ⟨_, Reach.tail .refl hg hu, hR⟩

end Machine
