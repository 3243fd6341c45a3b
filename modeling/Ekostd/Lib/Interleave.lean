/-
  Interleavings of agents that share nothing.

  * `Sts.interleave`: each action is a step of one agent on its own state;
  * `interleave_keeps`: what an agent's steps keep, all agents keep;
  * `interleave_other`: the steps of the others leave an agent alone.
-/
import Ekostd.Lib.Sts

namespace Sts

variable {ι σ : Type*} [DecidableEq ι]

/-- The agents `ι`, each with a state of its own. -/
def interleave (step : σ → Option σ) (init : ι → σ) : Sts (ι → σ) ι where
  init := init
  step s t := (step (s t)).map (Function.update s t)

variable {step : σ → Option σ} {init : ι → σ} {s s' : ι → σ} {t u : ι}

theorem interleave_step :
    (interleave step init).step s t = some s' ↔
      ∃ x, step (s t) = some x ∧ Function.update s t x = s' := by
  simp [interleave]

theorem interleave_self (h : (interleave step init).step s t = some s') :
    step (s t) = some (s' t) := by
  obtain ⟨x, hx, rfl⟩ := interleave_step.1 h
  rw [Function.update_self, hx]

theorem interleave_other (h : (interleave step init).step s u = some s') (hne : t ≠ u) :
    s' t = s t := by
  obtain ⟨x, -, rfl⟩ := interleave_step.1 h
  exact Function.update_of_ne hne x s

theorem interleave_exists {P : σ → Prop} (h : ∃ x, step (s t) = some x ∧ P x) :
    ∃ s', (interleave step init).step s t = some s' ∧ P (s' t) := by
  obtain ⟨x, hx, hP⟩ := h
  refine ⟨Function.update s t x, interleave_step.2 ⟨x, hx, rfl⟩, ?_⟩
  rwa [Function.update_self]

/-- **What an agent's steps keep, all agents keep.** -/
theorem interleave_keeps {P : σ → Prop} (h₀ : ∀ t, P (init t))
    (h : ∀ {x x'}, P x → step x = some x' → P x') :
    (interleave step init).Inductive fun s => ∀ t, P (s t) where
  init := h₀
  step {s u s'} hs hstep t := by
    by_cases hne : t = u
    · subst hne
      exact h (hs t) (interleave_self hstep)
    · rw [interleave_other hstep hne]
      exact hs t

end Sts
