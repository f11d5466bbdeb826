/-
# `Tmg.Lua.StrCmp` — how strings compare

`lj_str_cmp` compares two strings four bytes at a time.  It reads the words as the machine
has them, the first byte lowest, and turns them round where they differ.  The last word may
reach up to three bytes behind the end of the shorter string, into memory that is anything; these
bytes are shifted out,

    n - i = 1     a  ?  ?  ?     >> 24
    n - i = 2     a  b  ?  ?     >> 16
    n - i = 3     a  b  c  ?     >> 8

the shift being computed from what is left of the index when the length has been taken off, a
number below zero.

A string is here its length and the memory from its first byte on (`GCstr`), so that the
result is one for any such memory: the strings compare byte by byte (`strCmp_sign`).
-/
import Mathlib.Algebra.Group.Int.Even
import Tmg.Lib.BigEndian
import Tmg.Lua.Sort

namespace Tmg.Lua

open Lib

/-- `LJ_MAX_STR` -/
def maxStr : Nat := 0x7fffff00

/-- A string object: its length, and the memory from its first byte on. -/
structure GCstr where
  len : Nat
  data : Nat → Byte
  le_max : len ≤ maxStr

namespace GCstr

/-- The string. -/
def bytes (s : GCstr) : Bytes := (List.range s.len).map s.data

instance : Inhabited GCstr := ⟨⟨0, fun _ => 0, Nat.zero_le _⟩⟩

/-- A byte of the memory, as a number. -/
def digit (s : GCstr) (k : Nat) : Nat := (s.data k).toNat

theorem digit_lt (s : GCstr) (k : Nat) : s.digit k < 256 := (s.data k).toNat_lt

end GCstr

/-! ## The function -/

/-- `*(const uint32_t *)(strdata(s)+i)` -/
def load32 (s : GCstr) (i : Nat) : Nat :=
  s.digit i + s.digit (i + 1) * 2 ^ 8 + s.digit (i + 2) * 2 ^ 16 + s.digit (i + 3) * 2 ^ 24

/-- `lj_bswap` -/
def bswap (v : Nat) : Nat :=
  v % 2 ^ 8 * 2 ^ 24 + v / 2 ^ 8 % 2 ^ 8 * 2 ^ 16 + v / 2 ^ 16 % 2 ^ 8 * 2 ^ 8 + v / 2 ^ 24

/-- `(int32_t)x` -/
def toInt32 (x : Nat) : Int := if x < 2 ^ 31 then x else x - 2 ^ 32

/-- `(int32_t)(a->len - b->len)` -/
def lenDiff (a b : GCstr) : Int := toInt32 ((a.len + 2 ^ 32 - b.len) % 2 ^ 32)

/-- The loop of `lj_str_cmp`. -/
def strCmpLoop (a b : GCstr) (n i : Nat) : Int :=
  if i < n then
    if load32 a i ≠ load32 b i then
      let va := bswap (load32 a i)
      let vb := bswap (load32 b i)
      let i := (i + 2 ^ 32 - n) % 2 ^ 32
      if -3 ≤ toInt32 i then
        let shift := (32 + i * 8) % 2 ^ 32
        let va := va >>> shift
        let vb := vb >>> shift
        if va = vb then lenDiff a b else if va < vb then -1 else 1
      else if va < vb then -1 else 1
    else strCmpLoop a b n (i + 4)
  else lenDiff a b
termination_by n - i

/-- `lj_str_cmp` -/
def strCmp (a b : GCstr) : Int := strCmpLoop a b (min a.len b.len) 0

/-- `a < b` of two strings. -/
def strLess (a b : GCstr) : Bool := strCmp a b < 0

/-! ## What it compares -/

theorem bswap_load32 (s : GCstr) (i : Nat) : bswap (load32 s i) = value 256 s.digit i 4 := by
  have h0 := s.digit_lt i
  have h1 := s.digit_lt (i + 1)
  have h2 := s.digit_lt (i + 2)
  have h3 := s.digit_lt (i + 3)
  have hfirst : load32 s i % 2 ^ 8 = s.digit i := by
    rw [load32]
    omega
  have hsecond : load32 s i / 2 ^ 8 % 2 ^ 8 = s.digit (i + 1) := by
    rw [load32]
    omega
  have hthird : load32 s i / 2 ^ 16 % 2 ^ 8 = s.digit (i + 2) := by
    rw [load32]
    omega
  have hfourth : load32 s i / 2 ^ 24 = s.digit (i + 3) := by
    rw [load32]
    omega
  rw [bswap, hfirst, hsecond, hthird, hfourth]
  simp only [value, Nat.add_zero]
  omega

/-- The shift leaves the first bytes of a word. -/
theorem value_shift (s : GCstr) (i : Nat) {r : Nat} (hr : r ≤ 4) :
    value 256 s.digit i 4 >>> (32 - 8 * r) = value 256 s.digit i r := by
  have hbits : 32 - 8 * r = 8 * (4 - r) := by omega
  have hbase : (2 : Nat) ^ 8 = 256 := rfl
  have hdiv := value_div s.digit_lt i r (4 - r)
  rwa [Nat.add_sub_cancel' hr, ← hbase, ← Nat.pow_mul, ← hbits, ← Nat.shiftRight_eq_div_pow] at hdiv

/-- The bytes of a word are alike if the words are. -/
theorem load32_eq_iff (a b : GCstr) (i : Nat) :
    load32 a i = load32 b i ↔ ∀ j < 4, a.digit (i + j) = b.digit (i + j) := by
  constructor
  · intro h
    rw [← value_eq_iff a.digit_lt b.digit_lt, ← bswap_load32, ← bswap_load32, h]
  · intro h
    have h0 := h 0 (by omega)
    have h1 := h 1 (by omega)
    have h2 := h 2 (by omega)
    have h3 := h 3 (by omega)
    simp only [Nat.add_zero] at h0
    rw [load32, load32, h0, h1, h2, h3]

/-- Words that differ somewhere compare as the strings do. -/
theorem firstLess_word {a b : GCstr} {i m n : Nat} (halike : ∀ j < i, a.digit j = b.digit j)
    (hm : i + m ≤ n) (h : value 256 a.digit i m < value 256 b.digit i m) :
    FirstLess a.digit b.digit n := by
  rw [value_lt_iff a.digit_lt b.digit_lt] at h
  obtain ⟨k, hk, hsame, hless⟩ := h
  refine ⟨i + k, by omega, fun j hj => ?_, hless⟩
  rcases Nat.lt_or_ge j i with hji | hij
  · exact halike j hji
  · obtain ⟨r, rfl⟩ := Nat.exists_eq_add_of_le hij
    exact hsame r (by omega)

/-- The three ways in which the comparison ends. -/
structure Compared (a b : GCstr) (n : Nat) (r : Int) : Prop where
  cases : (r = -1 ∧ FirstLess a.digit b.digit n) ∨ (r = 1 ∧ FirstLess b.digit a.digit n) ∨
    (r = lenDiff a b ∧ ∀ j < n, a.digit j = b.digit j)

theorem strCmpLoop_compared {a b : GCstr} {n i : Nat} (hn : n ≤ maxStr)
    (halike : ∀ j < i, a.digit j = b.digit j) : Compared a b n (strCmpLoop a b n i) := by
  induction hk : n - i using Nat.strong_induction_on generalizing i with
  | h k ih =>
      rw [strCmpLoop]
      by_cases hin : i < n
      swap
      · rw [if_neg hin]
        exact ⟨.inr (.inr ⟨rfl, fun j hj => halike j (by omega)⟩)⟩
      rw [if_pos hin]
      by_cases hword : load32 a i = load32 b i
      · rw [if_neg (not_not.mpr hword)]
        refine ih _ (by omega) (fun j hj => ?_) rfl
        rcases Nat.lt_or_ge j i with hji | hij
        · exact halike j hji
        · obtain ⟨r, rfl⟩ := Nat.exists_eq_add_of_le hij
          exact (load32_eq_iff a b i).mp hword r (by omega)
      rw [if_pos hword, bswap_load32, bswap_load32]
      -- what is left of the index: `i - n`, as an unsigned number
      have hmax : maxStr < 2 ^ 31 := by decide
      have hleft : (i + 2 ^ 32 - n) % 2 ^ 32 = i + 2 ^ 32 - n := by omega
      have hsigned : toInt32 (i + 2 ^ 32 - n) = (i : Int) - n := by
        rw [toInt32, if_neg (by omega)]
        omega
      dsimp only
      rw [hleft, hsigned]
      by_cases hlast : (-3 : Int) ≤ i - n
      · obtain ⟨r, rfl⟩ : ∃ r, n = i + r := ⟨n - i, by omega⟩
        have hshift : (32 + (i + 2 ^ 32 - (i + r)) * 8) % 2 ^ 32 = 32 - 8 * r := by omega
        rw [if_pos hlast, hshift, value_shift a i (by omega), value_shift b i (by omega)]
        split_ifs with heq hlt
        · rw [value_eq_iff a.digit_lt b.digit_lt] at heq
          refine ⟨.inr (.inr ⟨rfl, fun j hj => ?_⟩)⟩
          rcases Nat.lt_or_ge j i with hji | hij
          · exact halike j hji
          · obtain ⟨q, rfl⟩ := Nat.exists_eq_add_of_le hij
            exact heq q (by omega)
        · exact ⟨.inl ⟨rfl, firstLess_word halike le_rfl hlt⟩⟩
        · have hgt := Nat.lt_of_le_of_ne (Nat.not_lt.mp hlt) (Ne.symm heq)
          exact ⟨.inr (.inl ⟨rfl, firstLess_word (fun j hj => (halike j hj).symm) le_rfl hgt⟩)⟩
      · have hne : value 256 a.digit i 4 ≠ value 256 b.digit i 4 := by
          rw [Ne, value_eq_iff a.digit_lt b.digit_lt, ← load32_eq_iff]
          exact hword
        rw [if_neg hlast]
        split_ifs with hlt
        · exact ⟨.inl ⟨rfl, firstLess_word halike (by omega) hlt⟩⟩
        · have hgt := Nat.lt_of_le_of_ne (Nat.not_lt.mp hlt) (Ne.symm hne)
          exact ⟨.inr (.inl ⟨rfl, firstLess_word (fun j hj => (halike j hj).symm) (by omega) hgt⟩)⟩

/-! ## The order of strings -/

theorem lenDiff_eq (a b : GCstr) : lenDiff a b = (a.len : Int) - b.len := by
  have ha := a.le_max
  have hb := b.le_max
  rw [maxStr] at ha hb
  rw [lenDiff, toInt32]
  split <;> omega

theorem GCstr.length_bytes (s : GCstr) : s.bytes.length = s.len := by simp [GCstr.bytes]

theorem GCstr.getElem_bytes (s : GCstr) {k : Nat} (hk : k < s.bytes.length) :
    s.bytes[k] = s.data k := by simp [GCstr.bytes]

theorem GCstr.data_eq {a b : GCstr} {j : Nat} (h : a.digit j = b.digit j) : a.data j = b.data j :=
  UInt8.toNat_inj.mp h

theorem bytes_lt_of_firstLess {a b : GCstr} (h : FirstLess a.digit b.digit (min a.len b.len)) :
    a.bytes < b.bytes := by
  obtain ⟨k, hk, halike, hless⟩ := h
  have ha : k < a.bytes.length := by rw [a.length_bytes]; omega
  have hb : k < b.bytes.length := by rw [b.length_bytes]; omega
  refine List.lt_iff_exists.mpr (.inr ⟨k, ha, hb, fun j hj => ?_, ?_⟩)
  · rw [a.getElem_bytes, b.getElem_bytes]
    exact GCstr.data_eq (halike j hj)
  · rw [a.getElem_bytes, b.getElem_bytes]
    exact UInt8.lt_iff_toNat_lt.mpr hless

/-- The beginning of a longer string comes first. -/
theorem bytes_lt_of_len {a b : GCstr} (halike : ∀ j < min a.len b.len, a.digit j = b.digit j)
    (h : a.len < b.len) : a.bytes < b.bytes := by
  refine List.lt_iff_exists.mpr (.inl ⟨?_, by rwa [a.length_bytes, b.length_bytes]⟩)
  refine List.ext_getElem (by simp [GCstr.length_bytes, h.le]) fun j hj hj' => ?_
  rw [a.length_bytes] at hj
  rw [List.getElem_take, a.getElem_bytes, b.getElem_bytes]
  exact GCstr.data_eq (halike j (by omega))

/-- The three ways in which strings compare. -/
theorem strCmp_trichotomy (a b : GCstr) :
    (strCmp a b < 0 ∧ a.bytes < b.bytes) ∨ (0 < strCmp a b ∧ b.bytes < a.bytes) ∨
      (strCmp a b = 0 ∧ a.bytes = b.bytes) := by
  have ha := a.le_max
  obtain ⟨hless | hmore | ⟨hlen, halike⟩⟩ :=
    strCmpLoop_compared (a := a) (b := b) (n := min a.len b.len) (i := 0) (by omega) (by omega)
  · exact .inl ⟨by rw [strCmp, hless.1]; decide, bytes_lt_of_firstLess hless.2⟩
  · have hbytes : b.bytes < a.bytes := bytes_lt_of_firstLess (by rw [Nat.min_comm]; exact hmore.2)
    exact .inr (.inl ⟨by rw [strCmp, hmore.1]; decide, hbytes⟩)
  · rw [strCmp, hlen, lenDiff_eq]
    rcases Nat.lt_trichotomy a.len b.len with hlt | heq | hgt
    · exact .inl ⟨by omega, bytes_lt_of_len halike hlt⟩
    · have hsame : a.bytes = b.bytes := by
        refine List.ext_getElem (by rw [a.length_bytes, b.length_bytes, heq]) fun j hj hj' => ?_
        rw [a.length_bytes] at hj
        rw [a.getElem_bytes, b.getElem_bytes]
        exact GCstr.data_eq (halike j (by omega))
      exact .inr (.inr ⟨by omega, hsame⟩)
    · refine .inr (.inl ⟨by omega, bytes_lt_of_len (fun j hj => ?_) hgt⟩)
      exact (halike j (by omega)).symm

theorem strCmp_lt_iff (a b : GCstr) : strCmp a b < 0 ↔ a.bytes < b.bytes := by
  obtain ⟨hneg, hlt⟩ | ⟨hpos, hgt⟩ | ⟨hzero, heq⟩ := strCmp_trichotomy a b
  · exact iff_of_true hneg hlt
  · exact iff_of_false (by omega) (List.lt_asymm hgt)
  · exact iff_of_false (by omega) (heq ▸ List.lt_irrefl _)

/-- **Strings compare byte by byte**, whatever is behind them in the memory. -/
theorem strCmp_sign (a b : GCstr) :
    (strCmp a b < 0 ↔ a.bytes < b.bytes) ∧ (strCmp a b = 0 ↔ a.bytes = b.bytes) := by
  refine ⟨strCmp_lt_iff a b, ?_⟩
  obtain ⟨hneg, hlt⟩ | ⟨hpos, hgt⟩ | ⟨hzero, heq⟩ := strCmp_trichotomy a b
  · exact iff_of_false (by omega) fun h => List.lt_irrefl _ (h ▸ hlt)
  · exact iff_of_false (by omega) fun h => List.lt_irrefl _ (h ▸ hgt)
  · exact iff_of_true hzero heq

theorem strLess_eq_true_iff {a b : GCstr} : strLess a b = true ↔ a.bytes < b.bytes := by
  rw [strLess, decide_eq_true_iff, strCmp_lt_iff]

theorem strLess_eq_false_iff {a b : GCstr} : strLess a b = false ↔ b.bytes ≤ a.bytes := by
  rw [← Bool.not_eq_true, strLess_eq_true_iff]
  rfl

/-- The comparison is one that `table.sort` can do with. -/
theorem weakOrder_strLess : WeakOrder strLess where
  asymm := by
    intro a b h
    rw [strLess_eq_true_iff] at h
    exact strLess_eq_false_iff.mpr (List.lt_asymm h)
  trans := by
    intro a b c hab hbc
    rw [strLess_eq_false_iff] at hab hbc ⊢
    exact List.le_trans hab hbc

end Tmg.Lua
