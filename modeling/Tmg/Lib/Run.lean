/-
# `Tmg.Lib.Run` — runs of a deterministic machine over a list of inputs

A machine is a step function `step : σ → α → σ`; its run over `xs` is
`xs.foldl step`.  What a proof about a run wants to say is one of these:

| | |
| :-- | :-- |
| `Always step P s xs` | every step of the run meets `P`, where `P` sees the state before the step, the input read and the inputs still to come |
| `foldl_invariant` | what every step preserves holds at the end of the run |
| `foldlM_invariant`, `foldlM_potential` | the same for a machine that can get stuck, and for what no step raises by more than a weight of its input |
| `foldlM_tracks`, `isSome_foldlM_iff` | a machine that can get stuck, tracked by one that cannot, and the runs on which it does not |

`always_iff` turns `Always`, which is a recursion and so suits an induction,
into the statement about all cut points of the input, which is how a condition
on a run reads in a specification; `always_append` takes a run apart.
-/
import Mathlib.Algebra.GroupWithZero.Nat
import Mathlib.Data.List.Basic
import Mathlib.Tactic.Common

namespace Tmg.Lib

variable {σ α : Type*}

/-- Every step of the run from `s` over the inputs meets `P`: the state before
the step, the input read, the inputs after it. -/
def Always (step : σ → α → σ) (P : σ → α → List α → Prop) : σ → List α → Prop
  | _, [] => True
  | s, x :: xs => P s x xs ∧ Always step P (step s x) xs

/-- On a given input the condition can be tested. -/
instance decidableAlways {step : σ → α → σ} {P : σ → α → List α → Prop}
    [∀ s x xs, Decidable (P s x xs)] : ∀ s xs, Decidable (Always step P s xs)
  | _, [] => isTrue trivial
  | s, x :: xs =>
      have := (decidableAlways (step s x) xs : Decidable (Always step P (step s x) xs))
      inferInstanceAs (Decidable (_ ∧ _))

/-- The recursion, as a statement about every cut point of the input. -/
theorem always_iff {step : σ → α → σ} {P : σ → α → List α → Prop} :
    ∀ {xs : List α} {s : σ},
      Always step P s xs ↔ ∀ p x r, xs = p ++ x :: r → P (p.foldl step s) x r
  | [], s => by
      constructor
      · intro _ p x r h
        exact absurd h.symm (by simp)
      · intro _
        trivial
  | y :: ys, s => by
      constructor
      · rintro ⟨hy, hys⟩ p x r h
        cases p with
        | nil =>
            obtain ⟨rfl, rfl⟩ := List.cons.inj h
            exact hy
        | cons z p =>
            obtain ⟨rfl, htail⟩ := List.cons.inj h
            exact always_iff.mp hys p x r htail
      · intro h
        refine ⟨h [] y ys rfl, always_iff.mpr ?_⟩
        intro p x r hp
        exact h (y :: p) x r (by rw [hp, List.cons_append])

/-- A run over two inputs is a run over the first, then one over the second. -/
theorem always_append {step : σ → α → σ} {P : σ → α → List α → Prop} :
    ∀ {xs ys : List α} {s : σ},
      Always step P s (xs ++ ys) ↔
        Always step (fun s x r => P s x (r ++ ys)) s xs ∧ Always step P (xs.foldl step s) ys
  | [], ys, s => by simp [Always]
  | x :: xs, ys, s => by
      rw [List.cons_append, Always, Always, always_append, List.foldl_cons, and_assoc]

/-- The invariant rule: what every step preserves holds at the end of the run. -/
theorem foldl_invariant {step : σ → α → σ} {I : σ → Prop}
    (hstep : ∀ s x, I s → I (step s x)) {s : σ} (h : I s) (xs : List α) :
    I (xs.foldl step s) := by
  induction xs generalizing s with
  | nil => exact h
  | cons x xs ih => exact ih (hstep s x h)

/-! ## Machines that can get stuck -/

/-- The invariant rule for a machine whose steps may have no result. -/
theorem foldlM_invariant {step : σ → α → Option σ} {I : σ → Prop}
    (hstep : ∀ s x s', step s x = some s' → I s → I s') :
    ∀ {xs : List α} {s s' : σ}, xs.foldlM step s = some s' → I s → I s'
  | [], s, s', h, hs => by
      obtain rfl := Option.some.inj h
      exact hs
  | x :: xs, s, s', h, hs => by
      obtain ⟨t, ht, h⟩ := Option.bind_eq_some_iff.mp h
      exact foldlM_invariant hstep h (hstep s x t ht hs)

/-- The potential rule: what no step raises by more than the weight of its input, no run
raises by more than the weight of its inputs. -/
theorem foldlM_potential {step : σ → α → Option σ} {potential : σ → Nat} {weight : α → Nat}
    (hstep : ∀ s x s', step s x = some s' → potential s' ≤ potential s + weight x) :
    ∀ {xs : List α} {s s' : σ}, xs.foldlM step s = some s' →
      potential s' ≤ potential s + (xs.map weight).sum
  | [], s, s', h => by
      obtain rfl := Option.some.inj h
      exact Nat.le_refl _
  | x :: xs, s, s', h => by
      obtain ⟨t, ht, h⟩ := Option.bind_eq_some_iff.mp h
      have hfirst := hstep s x t ht
      have hrest := foldlM_potential hstep h
      rw [List.map_cons, List.sum_cons]
      omega

/-! ### Tracked by an abstract machine -/

section

variable {β : Type*} {step : σ → α → Option σ} {next : β → α → β} {R : σ → β → Prop}
  {ok : β → α → Prop}

/-- The simulation rule: if every step that is `ok` in the abstract state has a result that
the abstract machine tracks, a run of `ok` steps has one. -/
theorem foldlM_tracks
    (hok : ∀ {s b} x, R s b → ok b x → ∃ s', step s x = some s' ∧ R s' (next b x)) :
    ∀ {xs : List α} {s : σ} {b : β}, R s b → Always next (fun b x _ => ok b x) b xs →
      ∃ s', xs.foldlM step s = some s' ∧ R s' (xs.foldl next b)
  | [], s, _, hs, _ => ⟨s, rfl, hs⟩
  | x :: xs, s, b, hs, hrun => by
      obtain ⟨t, ht, htb⟩ := hok x hs hrun.1
      obtain ⟨s', hs', hR⟩ := foldlM_tracks hok htb hrun.2
      refine ⟨s', ?_, hR⟩
      rw [List.foldlM_cons, ht]
      exact hs'

/-- If the other steps have no result, the runs with one are those of `ok` steps. -/
theorem isSome_foldlM_iff
    (hok : ∀ {s b} x, R s b → ok b x → ∃ s', step s x = some s' ∧ R s' (next b x))
    (hno : ∀ {s b} x, R s b → ¬ ok b x → step s x = none) :
    ∀ {xs : List α} {s : σ} {b : β}, R s b →
      ((xs.foldlM step s).isSome ↔ Always next (fun b x _ => ok b x) b xs)
  | [], _, _, _ => iff_of_true rfl trivial
  | x :: xs, s, b, hs => by
      rw [List.foldlM_cons, Always]
      by_cases hx : ok b x
      · obtain ⟨t, ht, htb⟩ := hok x hs hx
        rw [ht, and_iff_right hx]
        exact isSome_foldlM_iff hok hno htb
      · rw [hno x hs hx]
        exact iff_of_false Bool.false_ne_true fun h => hx h.1

end

end Tmg.Lib
