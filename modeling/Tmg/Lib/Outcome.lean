/-
# `Tmg.Lib.Outcome` — what computations that may fail come to

Two judgements about `Except`, each with one rule for each way a computation is built, so
that a proof about a `do` block follows the block.

    Returns P x         whatever `x` returns satisfies `P`
    Coupled e R x y     `x` and `y` return values related by `R`, or fail alike,
                        and neither fails with `e`

`Coupled` is for two runs of one program.  With equality for `R` and the error of a
recursion that runs out of fuel for `e`, it says that two amounts of fuel agree and that
both are enough; with another relation it is a statement about what the results share.
-/
import Mathlib.Data.List.Forall2
import Mathlib.Tactic.Common

namespace Tmg.Lib

universe u v

variable {ε : Type u} {α β γ δ : Type v}

/-- Whatever `x` returns satisfies `P`. -/
def Returns (P : α → Prop) (x : Except ε α) : Prop := ∀ a, x = .ok a → P a

theorem returns_ok {P : α → Prop} {a : α} (h : P a) : Returns (ε := ε) P (.ok a) := by
  rintro b ⟨⟩
  exact h

theorem returns_error {P : α → Prop} (e : ε) : Returns P (.error e) := nofun

theorem Returns.bind {Q : α → Prop} {P : β → Prop} {x : Except ε α} {f : α → Except ε β}
    (hx : Returns Q x) (hf : ∀ a, Q a → Returns P (f a)) : Returns P (x >>= f) := by
  cases x with
  | error e => exact returns_error e
  | ok a => exact hf a (hx a rfl)

/-- What holds of every continuation holds of the whole. -/
theorem Returns.after {P : β → Prop} {x : Except ε α} {f : α → Except ε β}
    (hf : ∀ a, Returns P (f a)) : Returns P (x >>= f) :=
  Returns.bind (Q := fun _ => True) (fun _ _ => trivial) fun a _ => hf a

theorem Returns.imp {P Q : α → Prop} {x : Except ε α} (hx : Returns P x) (h : ∀ a, P a → Q a) :
    Returns Q x :=
  fun a ha => h a (hx a ha)

theorem bind_eq_ok_iff {x : Except ε α} {f : α → Except ε β} {b : β} :
    (x >>= f) = .ok b ↔ ∃ a, x = .ok a ∧ f a = .ok b := by
  cases x with
  | error e => exact iff_of_false nofun nofun
  | ok a =>
      refine ⟨fun h => ⟨a, rfl, h⟩, ?_⟩
      rintro ⟨_, ⟨⟩, h⟩
      exact h

theorem map_eq_ok {α β ε : Type*} {x : Except ε α} {f : α → β} {b : β} (h : x.map f = .ok b) :
    ∃ a, x = .ok a ∧ f a = b := by
  cases x with
  | error e => exact absurd h nofun
  | ok a => exact ⟨a, rfl, Except.ok.inj h⟩

/-- A loop over a list returns if every turn does. -/
theorem mapM_eq_ok_iff {f : α → Except ε β} :
    ∀ {xs : List α} {ys : List β}, xs.mapM f = .ok ys ↔ List.Forall₂ (fun x y => f x = .ok y) xs ys
  | [], ys => by
      rw [List.mapM_nil, List.forall₂_nil_left_iff]
      exact ⟨fun h => (Except.ok.inj h).symm, fun h => h ▸ rfl⟩
  | x :: xs, ys => by
      rw [List.mapM_cons, List.forall₂_cons_left_iff]
      constructor
      · cases f x with
        | error e => exact nofun
        | ok y =>
            cases hxs : xs.mapM f with
            | error e => exact nofun
            | ok zs => exact fun h => ⟨y, zs, rfl, mapM_eq_ok_iff.mp hxs, (Except.ok.inj h).symm⟩
      · rintro ⟨y, zs, hx, hzs, rfl⟩
        rw [hx, mapM_eq_ok_iff.mpr hzs]
        rfl

theorem exists_mem_of_forall₂ {α β : Type*} {R : α → β → Prop} {x : α} :
    ∀ {xs : List α} {ys : List β}, List.Forall₂ R xs ys → x ∈ xs → ∃ y ∈ ys, R x y
  | _ :: _, _, .cons hxy h, hx => by
      rcases List.mem_cons.mp hx with rfl | hx
      · exact ⟨_, List.mem_cons_self, hxy⟩
      · obtain ⟨y, hy, hxy⟩ := exists_mem_of_forall₂ h hx
        exact ⟨y, List.mem_cons_of_mem _ hy, hxy⟩

theorem forall₂_append_left {α β : Type*} {R : α → β → Prop} :
    ∀ {xs xs' : List α} {ys : List β}, List.Forall₂ R (xs ++ xs') ys →
      ∃ zs zs', List.Forall₂ R xs zs ∧ List.Forall₂ R xs' zs' ∧ ys = zs ++ zs'
  | [], _, ys, h => ⟨[], ys, .nil, h, rfl⟩
  | _ :: _, _, _, .cons hxy h => by
      obtain ⟨zs, zs', hzs, hzs', rfl⟩ := forall₂_append_left h
      exact ⟨_, zs', .cons hxy hzs, hzs', rfl⟩

/-- Only what is in the list has to be related. -/
theorem forall₂_congr_mem {α β : Type*} {R S : α → β → Prop} :
    ∀ {xs : List α} {ys : List β}, (∀ x ∈ xs, ∀ y, R x y ↔ S x y) →
      (List.Forall₂ R xs ys ↔ List.Forall₂ S xs ys)
  | [], ys, _ => by rw [List.forall₂_nil_left_iff, List.forall₂_nil_left_iff]
  | x :: xs, [], _ => iff_of_false nofun nofun
  | x :: xs, y :: ys, h => by
      rw [List.forall_mem_cons] at h
      rw [List.forall₂_cons, List.forall₂_cons, h.1 y, forall₂_congr_mem h.2]

/-- `x` and `y` return values related by `R`, or both raise the same error, which is not
`e`. -/
inductive Coupled (e : ε) (R : α → β → Prop) : Except ε α → Except ε β → Prop
  | ok {a : α} {b : β} : R a b → Coupled e R (.ok a) (.ok b)
  | error {e' : ε} : e' ≠ e → Coupled e R (.error e') (.error e')

theorem Coupled.bind {e : ε} {R : α → β → Prop} {S : γ → δ → Prop} {x : Except ε α}
    {y : Except ε β} {f : α → Except ε γ} {g : β → Except ε δ} (h : Coupled e R x y)
    (hf : ∀ a b, R a b → Coupled e S (f a) (g b)) : Coupled e S (x >>= f) (y >>= g) := by
  cases h with
  | ok hab => exact hf _ _ hab
  | error hne => exact .error hne

theorem Coupled.imp {e : ε} {R S : α → β → Prop} {x : Except ε α} {y : Except ε β}
    (h : Coupled e R x y) (hRS : ∀ a b, R a b → S a b) : Coupled e S x y := by
  cases h with
  | ok hab => exact .ok (hRS _ _ hab)
  | error hne => exact .error hne

theorem Coupled.eq {e : ε} {x y : Except ε α} (h : Coupled e (· = ·) x y) : x = y := by
  cases h with
  | ok hab => rw [hab]
  | error _ => rfl

theorem Coupled.ne {e : ε} {R : α → β → Prop} {x : Except ε α} {y : Except ε β}
    (h : Coupled e R x y) : x ≠ .error e := by
  cases h with
  | ok _ => exact nofun
  | error hne => exact fun heq => hne (Except.error.inj heq)

/-- A run beside itself, with what is known of its result. -/
theorem Coupled.self {e : ε} {P : α → Prop} {x : Except ε α} (hne : x ≠ .error e)
    (h : Returns P x) : Coupled e (fun a b => a = b ∧ P a) x x := by
  cases x with
  | ok a => exact .ok ⟨rfl, h a rfl⟩
  | error e' => exact .error fun heq => hne (congrArg Except.error heq)

/-- What both return has the same image. -/
theorem Coupled.map_eq {e : ε} {R : α → β → Prop} {x : Except ε α} {y : Except ε β}
    {f : α → γ} {g : β → γ} (h : Coupled e R x y) (hfg : ∀ a b, R a b → f a = g b) :
    x.map f = y.map g := by
  cases h with
  | ok hab => exact congrArg Except.ok (hfg _ _ hab)
  | error _ => rfl

end Tmg.Lib
