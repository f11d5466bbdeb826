/-
# `Tmg.Lib.Words` — the words of a text

`words p s` are the maximal runs in `s` of entries that do not meet `p`, the blanks.  All
that is needed of them comes from one equation: a text splits at a blank
(`words_append_cons`).
-/
import Mathlib.Data.List.Infix
import Mathlib.Tactic.Common

namespace Tmg.Lib

variable {α : Type*} {p : α → Bool}

/-- The words of a text, `p` telling what is a blank. -/
def words (p : α → Bool) (s : List α) : List (List α) := (s.splitOnP p).filter fun w => !w.isEmpty

theorem words_append_cons {c : α} (hc : p c = true) (s t : List α) :
    words p (s ++ c :: t) = words p s ++ words p t := by
  rw [words, List.splitOnP_append_cons s t hc, List.filter_append]
  rfl

theorem words_nil : words p [] = [] := rfl

/-- A blank at the beginning is part of no word. -/
theorem words_cons {c : α} (hc : p c = true) (s : List α) : words p (c :: s) = words p s :=
  words_append_cons hc [] s

theorem words_dropWhile (s : List α) : words p (s.dropWhile p) = words p s := by
  induction s with
  | nil => rfl
  | cons c s ih =>
      cases hc : p c with
      | true => rw [List.dropWhile_cons_of_pos hc, words_cons hc, ih]
      | false => rw [List.dropWhile_cons_of_neg (by simp [hc])]

/-- A text without a blank is one word. -/
theorem words_of_forall_not {w : List α} (hne : w ≠ []) (h : ∀ c ∈ w, p c = false) :
    words p w = [w] := by
  rw [words, List.splitOnP_eq_singleton h, List.filter_cons_of_pos (by simpa using hne)]
  rfl

/-- A word ends at the next blank. -/
theorem words_append {w : List α} (hne : w ≠ []) (hw : ∀ c ∈ w, p c = false) {s : List α}
    (hs : ∀ c ∈ s.head?, p c = true) : words p (w ++ s) = w :: words p s := by
  cases s with
  | nil => rw [List.append_nil, words_of_forall_not hne hw, words_nil]
  | cons c s =>
      have hc : p c = true := hs c rfl
      rw [words_append_cons hc, words_of_forall_not hne hw, words_cons hc]
      rfl

/-- The pieces of a split are what is left of a text without its blanks. -/
theorem splitOnP_blanks (s : List α) :
    (∀ w ∈ s.splitOnP p, ∀ c ∈ w, p c = false) ∧ (s.splitOnP p).flatten = s.filter (!p ·) := by
  induction s with
  | nil => simp
  | cons c s ih =>
      rw [List.splitOnP_cons_eq_if_modifyHead]
      obtain ⟨w, ws, hws⟩ := List.exists_cons_of_ne_nil (List.splitOnP_ne_nil p s)
      rw [hws] at ih ⊢
      obtain ⟨hpieces, hflat⟩ := ih
      by_cases hc : p c = true
      · rw [if_pos hc, List.filter_cons_of_neg (by simp [hc]), ← hflat]
        refine ⟨fun v hv => ?_, rfl⟩
        rcases List.mem_cons.mp hv with rfl | hv
        · simp
        · exact hpieces v hv
      · rw [if_neg hc, List.filter_cons_of_pos (by simp [hc]), ← hflat, List.modifyHead_cons]
        rw [List.forall_mem_cons] at hpieces ⊢
        refine ⟨⟨List.forall_mem_cons.mpr ⟨by simpa using hc, hpieces.1⟩, hpieces.2⟩, rfl⟩

theorem mem_words {s w : List α} (h : w ∈ words p s) : w ≠ [] ∧ ∀ c ∈ w, p c = false := by
  obtain ⟨hw, hne⟩ := List.mem_filter.mp h
  exact ⟨by simpa using hne, (splitOnP_blanks s).1 w hw⟩

/-- What is no blank is in a word. -/
theorem exists_mem_words {s : List α} {c : α} (hc : c ∈ s) (hp : p c = false) :
    ∃ w ∈ words p s, c ∈ w := by
  have hflat : c ∈ (s.splitOnP p).flatten := by
    rw [(splitOnP_blanks s).2]
    exact List.mem_filter.mpr ⟨hc, by simpa using hp⟩
  obtain ⟨w, hw, hcw⟩ := List.mem_flatten.mp hflat
  refine ⟨w, List.mem_filter.mpr ⟨hw, ?_⟩, hcw⟩
  simpa using List.ne_nil_of_mem hcw

end Tmg.Lib
