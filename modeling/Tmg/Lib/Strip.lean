/-
# `Tmg.Lib.Strip` — a list without what stands at its ends

`strip p l` is `l` without the entries at its two ends that meet `p`.  What is stripped
can be put back (`strip_decomp`), more of it at the ends makes no difference
(`strip_append_left`, `strip_append_right`), and where every entry is written out in a way
that keeps its two ends, a list may be stripped before or after (`strip_flatMap`).
-/
import Mathlib.Data.List.DropRight
import Mathlib.Tactic.Common

namespace Tmg.Lib

variable {α β : Type*} {p : α → Bool}

/-- The list without the entries at its ends that meet `p`. -/
def strip (p : α → Bool) (l : List α) : List α := (l.dropWhile p).rdropWhile p

theorem rdropWhile_append_right (l : List α) {b : List α} (hb : ∀ a ∈ b, p a = true) :
    (l ++ b).rdropWhile p = l.rdropWhile p := by
  have hrev : ∀ a ∈ b.reverse, p a = true := fun a ha => hb a (List.mem_reverse.mp ha)
  rw [List.rdropWhile, List.rdropWhile, List.reverse_append, List.dropWhile_append_of_pos hrev]

theorem strip_append_left {b : List α} (hb : ∀ a ∈ b, p a = true) (l : List α) :
    strip p (b ++ l) = strip p l := by
  rw [strip, strip, List.dropWhile_append_of_pos hb]

theorem strip_append_right (l : List α) {b : List α} (hb : ∀ a ∈ b, p a = true) :
    strip p (l ++ b) = strip p l := by
  rw [strip, strip, List.dropWhile_append]
  split
  · next h =>
      rw [List.isEmpty_iff.mp h, List.dropWhile_eq_nil_iff.mpr hb]
  · exact rdropWhile_append_right _ hb

/-- What does not begin with an entry that meets `p` is not touched. -/
theorem infix_dropWhile {t : List α} (ht : ∀ a ∈ t.head?, p a = false) :
    ∀ {l : List α}, t <:+: l → t <:+: l.dropWhile p
  | [], h => h
  | b :: l, h => by
      cases hb : p b with
      | true =>
          rw [List.dropWhile_cons_of_pos hb]
          rcases List.infix_cons_iff.mp h with hpre | hl
          · cases t with
            | nil => exact List.nil_infix
            | cons a t =>
                obtain ⟨rfl, -⟩ := List.cons_prefix_cons.mp hpre
                exact absurd (hb.symm.trans (ht _ rfl)) (by decide)
          · exact infix_dropWhile ht hl
      | false =>
          rw [List.dropWhile_cons_of_neg (by simp [hb])]
          exact h

/-- What is stripped meets `p`. -/
theorem strip_decomp (p : α → Bool) (l : List α) :
    ∃ a b, l = a ++ strip p l ++ b ∧ (∀ x ∈ a, p x = true) ∧ ∀ x ∈ b, p x = true := by
  refine ⟨l.takeWhile p, (l.dropWhile p).rtakeWhile p, ?_, ?_, ?_⟩
  · rw [strip, List.append_assoc, List.rdropWhile_append_rtakeWhile, List.takeWhile_append_dropWhile]
  · exact fun x hx => List.mem_takeWhile_imp hx
  · exact fun x hx => List.mem_rtakeWhile_imp hx

/-! ## Lists written out -/

section

variable {q : β → Bool} {f : α → List β}

theorem dropWhile_flatMap (hpos : ∀ a, p a = true → ∀ b ∈ f a, q b = true)
    (hneg : ∀ a, ¬ p a = true → ∃ b r, f a = b :: r ∧ ¬ q b = true) :
    ∀ l : List α, (l.flatMap f).dropWhile q = (l.dropWhile p).flatMap f
  | [] => rfl
  | a :: l => by
      by_cases ha : p a = true
      · rw [List.flatMap_cons, List.dropWhile_append_of_pos (hpos a ha), List.dropWhile_cons_of_pos ha]
        exact dropWhile_flatMap hpos hneg l
      · obtain ⟨b, r, hf, hb⟩ := hneg a ha
        rw [List.dropWhile_cons_of_neg ha, List.flatMap_cons, hf, List.cons_append,
          List.dropWhile_cons_of_neg hb]

theorem rdropWhile_flatMap (hpos : ∀ a, p a = true → ∀ b ∈ f a, q b = true)
    (hneg : ∀ a, ¬ p a = true → ∃ r b, f a = r ++ [b] ∧ ¬ q b = true) (l : List α) :
    (l.flatMap f).rdropWhile q = (l.rdropWhile p).flatMap f := by
  induction l using List.reverseRecOn with
  | nil => rfl
  | append_singleton l a ih =>
      by_cases ha : p a = true
      · rw [List.flatMap_append, List.flatMap_singleton, rdropWhile_append_right _ (hpos a ha),
          List.rdropWhile_concat_pos _ _ _ ha]
        exact ih
      · obtain ⟨r, b, hf, hb⟩ := hneg a ha
        rw [List.rdropWhile_concat_neg _ _ _ ha, List.flatMap_append, List.flatMap_singleton, hf,
          ← List.append_assoc, List.rdropWhile_concat_neg _ _ _ hb]

/-- An entry that meets `p` is written as entries to be stripped, and any other keeps its
two ends. -/
theorem strip_flatMap (hpos : ∀ a, p a = true → ∀ b ∈ f a, q b = true)
    (hfirst : ∀ a, ¬ p a = true → ∃ b r, f a = b :: r ∧ ¬ q b = true)
    (hlast : ∀ a, ¬ p a = true → ∃ r b, f a = r ++ [b] ∧ ¬ q b = true) (l : List α) :
    strip q (l.flatMap f) = (strip p l).flatMap f := by
  rw [strip, strip, dropWhile_flatMap hpos hfirst, rdropWhile_flatMap hpos hlast]

end

end Tmg.Lib
