/-
# `Tmg.Lib.Rearrange` — entries that change places

A table is a function of its index.  What an algorithm does that only moves entries within
a range is `Rearranged l u`: the new table is the old one behind a permutation that fixes
every index outside of `l`, …, `u`.  The exchange of two entries is such a step, steps of one
range compose, and

| | |
| :-- | :-- |
| `Rearranged.outside` | outside of the range nothing changes |
| `Rearranged.forall_mem` | what holds of all entries of the range holds of them afterwards |
| `Rearranged.perm` | the entries of the range are the same, as a list in another order |

`Ordered r l u` says that the entries from `l` to `u` are in order, and `Ordered.join` puts
two ordered ranges and an entry between them (`Between`) together.
-/
import Mathlib.Data.List.Nodup
import Mathlib.Data.Set.Piecewise
import Mathlib.Logic.Equiv.Basic
import Mathlib.Tactic.Common

namespace Tmg.Lib

variable {α : Type*} {l u : Nat} {t t' t'' : Nat → α}

/-- Two entries exchanged. -/
def exchange (t : Nat → α) (i j : Nat) : Nat → α :=
  fun k => if k = i then t j else if k = j then t i else t k

@[simp] theorem exchange_left (t : Nat → α) (i j : Nat) : exchange t i j i = t j := if_pos rfl

@[simp] theorem exchange_right (t : Nat → α) (i j : Nat) : exchange t i j j = t i := by
  by_cases h : j = i
  · rw [h, exchange_left]
  · rw [exchange, if_neg h, if_pos rfl]

theorem exchange_ne {i j k : Nat} (hi : k ≠ i) (hj : k ≠ j) : exchange t i j k = t k := by
  rw [exchange, if_neg hi, if_neg hj]

/-- An exchange of two entries of `s` does not touch what stands outside of `s`. -/
theorem exchange_piecewise {s : Set Nat} [∀ k, Decidable (k ∈ s)] {i j : Nat} (hi : i ∈ s) (hj : j ∈ s)
    (t rest : Nat → α) : exchange (s.piecewise t rest) i j = s.piecewise (exchange t i j) rest := by
  funext k
  by_cases hk : k ∈ s
  · rw [Set.piecewise_eq_of_mem _ _ _ hk, exchange, exchange, Set.piecewise_eq_of_mem _ _ _ hi,
      Set.piecewise_eq_of_mem _ _ _ hj, Set.piecewise_eq_of_mem _ _ _ hk]
  · have hki : k ≠ i := fun h => hk (h ▸ hi)
    have hkj : k ≠ j := fun h => hk (h ▸ hj)
    rw [exchange_ne hki hkj, Set.piecewise_eq_of_notMem _ _ _ hk, Set.piecewise_eq_of_notMem _ _ _ hk]

/-- `t'` has the entries of `t`, those from `l` to `u` in another order. -/
def Rearranged (l u : Nat) (t t' : Nat → α) : Prop :=
  ∃ σ : Equiv.Perm Nat, (∀ k, ¬ (l ≤ k ∧ k ≤ u) → σ k = k) ∧ t' = t ∘ σ

namespace Rearranged

theorem refl (l u : Nat) (t : Nat → α) : Rearranged l u t t := ⟨Equiv.refl Nat, fun _ _ => rfl, rfl⟩

theorem trans (h : Rearranged l u t t') (h' : Rearranged l u t' t'') : Rearranged l u t t'' := by
  obtain ⟨σ, hσ, rfl⟩ := h
  obtain ⟨τ, hτ, rfl⟩ := h'
  refine ⟨τ.trans σ, fun k hk => ?_, rfl⟩
  rw [Equiv.trans_apply, hτ k hk, hσ k hk]

theorem mono {l' u' : Nat} (h : Rearranged l u t t') (hl : l' ≤ l) (hu : u ≤ u') :
    Rearranged l' u' t t' := by
  obtain ⟨σ, hσ, rfl⟩ := h
  exact ⟨σ, fun k hk => hσ k fun hin => hk ⟨Nat.le_trans hl hin.1, Nat.le_trans hin.2 hu⟩, rfl⟩

theorem exchange {i j : Nat} (hi : l ≤ i ∧ i ≤ u) (hj : l ≤ j ∧ j ≤ u) :
    Rearranged l u t (exchange t i j) := by
  refine ⟨Equiv.swap i j, fun k hk => ?_, funext fun k => ?_⟩
  · refine Equiv.swap_apply_of_ne_of_ne ?_ ?_
    · rintro rfl
      exact hk hi
    · rintro rfl
      exact hk hj
  · rw [Function.comp_apply, Equiv.swap_apply_def, Lib.exchange]
    split_ifs <;> rfl

theorem outside (h : Rearranged l u t t') {k : Nat} (hk : ¬ (l ≤ k ∧ k ≤ u)) : t' k = t k := by
  obtain ⟨σ, hσ, rfl⟩ := h
  rw [Function.comp_apply, hσ k hk]

/-- The permutation does not lead out of the range. -/
theorem mem_range {σ : Equiv.Perm Nat} (hσ : ∀ k, ¬ (l ≤ k ∧ k ≤ u) → σ k = k) {k : Nat}
    (hk : l ≤ k ∧ k ≤ u) : l ≤ σ k ∧ σ k ≤ u := by
  by_contra hout
  have hfix : σ k = k := σ.injective (hσ (σ k) hout)
  exact hout (by rwa [hfix])

theorem forall_mem (h : Rearranged l u t t') {p : α → Prop} (hp : ∀ k, l ≤ k → k ≤ u → p (t k)) :
    ∀ k, l ≤ k → k ≤ u → p (t' k) := by
  obtain ⟨σ, hσ, rfl⟩ := h
  intro k hl hu
  have hk := mem_range hσ ⟨hl, hu⟩
  exact hp (σ k) hk.1 hk.2

end Rearranged

/-- The entries with the indices 1 to `n`. -/
def entries (t : Nat → α) (n : Nat) : List α := (List.range' 1 n).map t

theorem Rearranged.perm {n : Nat} (h : Rearranged 1 n t t') :
    (entries t' n).Perm (entries t n) := by
  obtain ⟨σ, hσ, rfl⟩ := h
  have hperm : ((List.range' 1 n).map σ).Perm (List.range' 1 n) := by
    rw [List.perm_ext_iff_of_nodup (List.Nodup.map σ.injective List.nodup_range') List.nodup_range']
    intro k
    rw [List.mem_map, List.mem_range'_1]
    constructor
    · rintro ⟨i, hi, rfl⟩
      rw [List.mem_range'_1] at hi
      have hk := mem_range hσ (k := i) (by omega)
      omega
    · intro hk
      refine ⟨σ.symm k, ?_, σ.apply_symm_apply k⟩
      rw [List.mem_range'_1]
      by_contra hout
      have hfix := hσ (σ.symm k) (by omega)
      rw [σ.apply_symm_apply] at hfix
      omega
  have hmap := hperm.map t
  rwa [List.map_map] at hmap

/-! ## Order -/

/-- The entries from `l` to `u` are in order. -/
def Ordered (r : α → α → Prop) (l u : Nat) (t : Nat → α) : Prop :=
  ∀ i j, l ≤ i → i < j → j ≤ u → r (t i) (t j)

variable {r : α → α → Prop}

theorem Ordered.of_le (h : u ≤ l) (t : Nat → α) : Ordered r l u t := by
  intro i j hi hij hj
  omega

/-- The entry `m` stands between those before it and those behind it. -/
structure Between (r : α → α → Prop) (l m u : Nat) (t : Nat → α) : Prop where
  below : ∀ k, l ≤ k → k < m → r (t k) (t m)
  above : ∀ k, m < k → k ≤ u → r (t m) (t k)

theorem Between.low {m : Nat} (h : Between r l m u t) (hparts : Rearranged l (m - 1) t t')
    (hm : l < m) : Between r l m u t' where
  below := by
    have hfix : t' m = t m := hparts.outside (by omega)
    intro k hk hkm
    rw [hfix]
    exact hparts.forall_mem (p := fun x => r x (t m)) (fun k hk hkm => h.below k hk (by omega)) k hk
      (by omega)
  above := by
    have hfix : t' m = t m := hparts.outside (by omega)
    intro k hmk hk
    rw [hfix, hparts.outside (by omega)]
    exact h.above k hmk hk

theorem Between.high {m : Nat} (h : Between r l m u t) (hparts : Rearranged (m + 1) u t t') :
    Between r l m u t' where
  below := by
    have hfix : t' m = t m := hparts.outside (by omega)
    intro k hk hkm
    rw [hfix, hparts.outside (by omega)]
    exact h.below k hk hkm
  above := by
    have hfix : t' m = t m := hparts.outside (by omega)
    intro k hmk hk
    rw [hfix]
    exact hparts.forall_mem (p := fun x => r (t m) x) (fun k hmk hk => h.above k (by omega) hk) k hmk hk

/-- Two ranges in order, and the entry between them. -/
theorem Ordered.join (htrans : ∀ {a b c}, r a b → r b c → r a c) {m : Nat} (hm : Between r l m u t)
    (hlow : Ordered r l (m - 1) t) (hhigh : Ordered r (m + 1) u t) : Ordered r l u t := by
  intro i j hi hij hj
  rcases Nat.lt_trichotomy j m with hjm | rfl | hjm
  · exact hlow i j hi hij (by omega)
  · exact hm.below i hi hij
  · rcases Nat.lt_trichotomy i m with him | rfl | him
    · exact htrans (hm.below i hi him) (hm.above j hjm hj)
    · exact hm.above j hjm hj
    · exact hhigh i j (by omega) hij hj

/-- What happens outside of the range leaves it in order. -/
theorem Ordered.frame {l' u' : Nat} (h : Ordered r l u t) (hparts : Rearranged l' u' t t')
    (hout : u' < l ∨ u < l') : Ordered r l u t' := by
  intro i j hi hij hj
  rw [hparts.outside (by omega), hparts.outside (by omega)]
  exact h i j hi hij hj

theorem Ordered.pairwise {n : Nat} (h : Ordered r 1 n t) : (entries t n).Pairwise r := by
  rw [entries, List.pairwise_map]
  refine (List.pairwise_lt_range' (s := 1) (n := n)).imp_of_mem fun {i j} hi hj hij => ?_
  rw [List.mem_range'_1] at hi hj
  exact h i j hi.1 hij (by omega)

end Tmg.Lib
