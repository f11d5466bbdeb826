/-
# `Tmg.Lib.BigEndian` — numbers by their digits

`value b d i m` is the number that the `m` digits from `d i` on write in base `b`, the first one
being the highest.  Two numbers of as many digits compare as their digits do, one after the
other (`value_lt_iff`), and a division by a power of the base takes the last digits off
(`value_div`).
-/
import Mathlib.Algebra.Group.Nat.Even

namespace Tmg.Lib

/-- `d` and `e` are alike up to some index below `m`, at which `d` has the smaller entry. -/
def FirstLess {α : Type*} [LT α] (d e : Nat → α) (m : Nat) : Prop :=
  ∃ k < m, (∀ j < k, d j = e j) ∧ d k < e k

variable {b : Nat} {d e : Nat → Nat}

/-- The number with the digits `d i`, …, `d (i + m - 1)`. -/
def value (b : Nat) (d : Nat → Nat) (i : Nat) : Nat → Nat
  | 0 => 0
  | m + 1 => value b d i m * b + d (i + m)

/-- One more digit is compared if the others are equal. -/
theorem firstLess_succ {m : Nat} :
    FirstLess d e (m + 1) ↔ FirstLess d e m ∨ (∀ j < m, d j = e j) ∧ d m < e m := by
  constructor
  · rintro ⟨k, hk, halike, hless⟩
    rcases Nat.lt_or_ge k m with hkm | hmk
    · exact .inl ⟨k, hkm, halike, hless⟩
    · obtain rfl : k = m := by omega
      exact .inr ⟨halike, hless⟩
  · rintro (⟨k, hk, halike, hless⟩ | ⟨halike, hless⟩)
    · exact ⟨k, by omega, halike, hless⟩
    · exact ⟨m, Nat.lt_succ_self m, halike, hless⟩

/-- A digit behind a number decides where the numbers are equal. -/
theorem mul_add_lt_iff {x y c c' : Nat} (hc : c < b) (hc' : c' < b) :
    x * b + c < y * b + c' ↔ x < y ∨ x = y ∧ c < c' := by
  rcases Nat.lt_trichotomy x y with hxy | rfl | hxy
  · have hmul : (x + 1) * b ≤ y * b := Nat.mul_le_mul_right b hxy
    have hlt : x * b + c < y * b + c' := by
      rw [Nat.add_mul, Nat.one_mul] at hmul
      omega
    exact iff_of_true hlt (.inl hxy)
  · simp
  · have hmul : (y + 1) * b ≤ x * b := Nat.mul_le_mul_right b hxy
    rw [Nat.add_mul, Nat.one_mul] at hmul
    refine iff_of_false (by omega) ?_
    omega

/-- The numbers are equal if all the digits are. -/
theorem value_eq_iff (hd : ∀ k, d k < b) (he : ∀ k, e k < b) (i m : Nat) :
    value b d i m = value b e i m ↔ ∀ j < m, d (i + j) = e (i + j) := by
  induction m with
  | zero => simp [value]
  | succ m ih =>
      have hless := mul_add_lt_iff (x := value b d i m) (y := value b e i m) (hd (i + m)) (he (i + m))
      have hmore := mul_add_lt_iff (x := value b e i m) (y := value b d i m) (he (i + m)) (hd (i + m))
      rw [value, value, Nat.forall_lt_succ_right, ← ih]
      omega

/-- **Numbers of as many digits compare as their digits do.** -/
theorem value_lt_iff (hd : ∀ k, d k < b) (he : ∀ k, e k < b) (i m : Nat) :
    value b d i m < value b e i m ↔ FirstLess (fun k => d (i + k)) (fun k => e (i + k)) m := by
  induction m with
  | zero => simp [value, FirstLess]
  | succ m ih =>
      rw [value, value, mul_add_lt_iff (hd _) (he _), ih, value_eq_iff hd he, firstLess_succ]

/-- The last digits are taken off by a division. -/
theorem value_div (hd : ∀ k, d k < b) (i m r : Nat) :
    value b d i (m + r) / b ^ r = value b d i m := by
  induction r with
  | zero => simp
  | succ r ih =>
      have hpos : 0 < b := Nat.lt_of_le_of_lt (Nat.zero_le _) (hd 0)
      rw [← Nat.add_assoc, value, Nat.pow_succ', ← Nat.div_div_eq_div_mul, Nat.mul_comm _ b,
        Nat.mul_add_div hpos, Nat.div_eq_of_lt (hd _), Nat.add_zero, ih]

end Tmg.Lib
