/-
# `Tmg.Lib.Decimal` — numbers as decimal digits

What `%d` writes for a number (`decimal`), and the value of a run of digits
(`digitsValue`).  A reader that takes the digits at the head of its input gets back the
number that was written there, if no further digit follows (`takeWhile_digits`,
`digitsValue_decimal`).
-/
import Mathlib.Algebra.Group.Nat.Even
import Mathlib.Data.List.TakeWhile
import Mathlib.Tactic.Common

namespace Tmg.Lib

/-- `'0'` to `'9'` -/
def isDigit (b : UInt8) : Bool := 48 ≤ b && b ≤ 57

/-- `%d` of a number that is not negative. -/
def decimal (n : Nat) : List UInt8 := (Nat.toDigits 10 n).map fun c => c.toNat.toUInt8

/-- `%d` -/
def decimalInt (n : Int) : List UInt8 :=
  if n < 0 then 45 :: decimal n.natAbs else decimal n.natAbs

/-- The value of a run of digits. -/
def digitsValue (s : List UInt8) : Nat := s.foldl (fun v b => 10 * v + (b.toNat - 48)) 0

/-! ## A number read back -/

/-- A digit as a byte. -/
theorem toNat_digit {c : Char} (h : c.isDigit = true) : c.toNat.toUInt8.toNat = c.toNat := by
  simp only [Char.isDigit, Bool.and_eq_true, decide_eq_true_eq, UInt32.le_iff_toNat_le] at h
  have hlt : c.toNat < 256 := Nat.lt_of_le_of_lt h.2 (by decide)
  simp [Nat.mod_eq_of_lt hlt]

theorem isDigit_digit {c : Char} (h : c.isDigit = true) : isDigit c.toNat.toUInt8 = true := by
  have hval := toNat_digit h
  simp only [Char.isDigit, Bool.and_eq_true, decide_eq_true_eq, UInt32.le_iff_toNat_le] at h
  simp only [isDigit, Bool.and_eq_true, decide_eq_true_eq, UInt8.le_iff_toNat_le, hval]
  exact h

theorem isDigit_decimal {n : Nat} : ∀ b ∈ decimal n, isDigit b = true := by
  intro b hb
  obtain ⟨c, hc, rfl⟩ := List.mem_map.mp hb
  exact isDigit_digit (Nat.isDigit_of_mem_toDigits (by decide) (by decide) hc)

theorem decimal_ne_nil (n : Nat) : decimal n ≠ [] := by
  simp [decimal, Nat.toDigits_ne_nil]

theorem length_decimal_le_iff {n k : Nat} (hk : 0 < k) : (decimal n).length ≤ k ↔ n < 10 ^ k := by
  rw [decimal, List.length_map, Nat.length_toDigits_le_iff (by decide) hk]

theorem foldl_digits :
    ∀ (cs : List Char) (v : Nat), (∀ c ∈ cs, c.isDigit = true) →
      (cs.map fun c => c.toNat.toUInt8).foldl (fun v b => 10 * v + (b.toNat - 48)) v
        = Nat.ofDigitChars 10 cs v
  | [], v, _ => rfl
  | c :: cs, v, h => by
      have hc : c.toNat.toUInt8.toNat = c.toNat := toNat_digit (h c List.mem_cons_self)
      rw [List.map_cons, List.foldl_cons, hc, Nat.ofDigitChars_cons]
      exact foldl_digits cs _ fun d hd => h d (List.mem_cons_of_mem _ hd)

@[simp] theorem digitsValue_decimal (n : Nat) : digitsValue (decimal n) = n := by
  have hdigits : ∀ c ∈ Nat.toDigits 10 n, c.isDigit = true :=
    fun c hc => Nat.isDigit_of_mem_toDigits (by decide) (by decide) hc
  rw [digitsValue, decimal, foldl_digits _ 0 hdigits, Nat.ofDigitChars_ten_toDigits]

/-- A reader takes the run of digits at the head of its input. -/
theorem takeWhile_digits {s rest : List UInt8} (hs : ∀ b ∈ s, isDigit b = true)
    (hrest : ∀ b ∈ rest.head?, isDigit b = false) :
    (s ++ rest).takeWhile isDigit = s ∧ (s ++ rest).dropWhile isDigit = rest := by
  rw [List.takeWhile_append_of_pos hs, List.dropWhile_append_of_pos hs]
  cases rest with
  | nil => simp
  | cons b rest =>
      have hb : isDigit b = false := hrest b rfl
      simp [hb]

end Tmg.Lib
