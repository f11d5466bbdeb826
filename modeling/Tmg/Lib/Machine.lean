/-
# `Tmg.Lib.Machine` — when a deterministic machine halts

A machine is a step function `step : σ → σ`; it halts from `s` when some iterate of
the step is a final state.  Two rules decide it, each from an invariant `I` of the
states the run goes through:

| | |
| :-- | :-- |
| `Halts.of_measure` | every step from a state that is not final lowers a measure |
| `not_halts_of_invariant` | no state of `I` is final |

What every step preserves along the way is `Function.Iterate.rec`.
-/
import Mathlib.Logic.Function.Iterate
import Mathlib.Tactic.Common

namespace Tmg.Lib

variable {σ : Type*}

/-- Some number of steps leads from `s` to a final state. -/
def Halts (step : σ → σ) (final : σ → Prop) (s : σ) : Prop := ∃ n, final (step^[n] s)

theorem Halts.of_step {step : σ → σ} {final : σ → Prop} {s : σ} (h : Halts step final (step s)) :
    Halts step final s := by
  obtain ⟨n, hn⟩ := h
  exact ⟨n + 1, by rwa [Function.iterate_succ_apply]⟩

/-- The measure rule. -/
theorem Halts.of_measure {step : σ → σ} {final : σ → Prop} {I : σ → Prop} (m : σ → Nat)
    (hstep : ∀ s, I s → ¬ final s → I (step s) ∧ m (step s) < m s) {s : σ} (h : I s) :
    Halts step final s := by
  generalize hk : m s = k
  induction k using Nat.strongRecOn generalizing s with
  | ind k ih =>
      by_cases hfinal : final s
      · exact ⟨0, hfinal⟩
      · obtain ⟨hI, hlt⟩ := hstep s h hfinal
        exact (ih _ (hk ▸ hlt) hI rfl).of_step

/-- A run that stays among states that are not final never halts. -/
theorem not_halts_of_invariant {step : σ → σ} {final : σ → Prop} {I : σ → Prop}
    (hstep : ∀ s, I s → I (step s)) (hfinal : ∀ s, I s → ¬ final s) {s : σ} (h : I s) :
    ¬ Halts step final s := by
  rintro ⟨n, hn⟩
  exact hfinal _ (Function.Iterate.rec I h hstep n) hn

end Tmg.Lib
