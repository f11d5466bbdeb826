/-
# `Tmg.Lib.Calls` — programs by the calls they make

A program that needs something from its surroundings is the tree of its calls: at a call it goes on
by what it is answered.  What answers keeps a state of its own, so one call can change what the next
one is answered.

Two surroundings that answer alike, whatever their state, all the calls that a program can make lead
it to the same end (`run_congr`).
-/
import Mathlib.Tactic.Common

namespace Tmg.Lib

/-- A program that makes calls `ι`, is answered `ρ`, and ends with an `α`. -/
inductive Calls (ι ρ α : Type*) where
  | done (a : α)
  | call (i : ι) (rest : ρ → Calls ι ρ α)

namespace Calls

variable {ι ρ α σ : Type*}

/-- The end of a program, and the state of what answered its calls. -/
def run (answer : ι → σ → ρ × σ) : Calls ι ρ α → σ → α × σ
  | done a, s => (a, s)
  | call i rest, s => run answer (rest (answer i s).1) (answer i s).2

/-- All calls that a program can make meet `P`. -/
def Only (P : ι → Prop) : Calls ι ρ α → Prop
  | done _ => True
  | call i rest => P i ∧ ∀ r, (rest r).Only P

/-- **Surroundings that answer alike.** -/
theorem run_congr {P : ι → Prop} {answer answer' : ι → σ → ρ × σ}
    (h : ∀ i, P i → ∀ s, answer i s = answer' i s) {p : Calls ι ρ α} (hp : p.Only P) (s : σ) :
    p.run answer s = p.run answer' s := by
  induction p generalizing s with
  | done a => rfl
  | call i rest ih =>
      obtain ⟨hi, hrest⟩ := hp
      rw [run, run, h i hi s]
      exact ih _ (hrest _) _

end Calls

end Tmg.Lib
