/-
# `Tmg.Lib.LongBracket` — long brackets, and when the closing one is the first

A long bracket of level `n` closes with the mark `b e⋯e b`, `n` symbols `e`
between two symbols `b`; the body runs to the first such mark.  The alphabet is
arbitrary, `b` and `e` are any two distinct symbols of it.

    cutAt (closing b e n) (t ++ closing b e n ++ r) = some (t, r)
      ↔  no mark of level `n` stands in `t`,  and  `t` does not end in `b e⋯e`

(`cutAt_closing_iff`).  The second condition is the one a writer forgets: a body
that ends in `b` and `n` times `e` borrows the first `b` of the writer's own
mark, and the literal ends `n + 1` symbols early.

`IsLevel b e t n` says that `n` is the level a writer takes who only counts the
marks inside the body: one more than the highest level that occurs.
-/
import Tmg.Lib.Search

namespace Tmg.Lib

section LongBracket

variable {α : Type*} (b e : α)

/-- What a mark of level `n` is up to its last symbol. -/
def closingStem (n : Nat) : List α := b :: List.replicate n e

/-- The closing mark of level `n`. -/
def closing (n : Nat) : List α := closingStem b e n ++ [b]

@[simp] theorem length_closingStem (n : Nat) : (closingStem b e n).length = n + 1 := by
  simp [closingStem]

@[simp] theorem length_closing (n : Nat) : (closing b e n).length = n + 2 := by
  simp [closing]

theorem closing_eq (n : Nat) : closing b e n = b :: (List.replicate n e ++ [b]) := rfl

theorem closingStem_succ (n : Nat) : closingStem b e (n + 1) = closingStem b e n ++ [e] := by
  simp [closingStem, List.replicate_succ']

theorem closing_ne_nil (n : Nat) : closing b e n ≠ [] := by simp [closing]

variable {b e}

/-- A mark opens with `b`. -/
theorem closing_prefix_cons_iff {n : Nat} {c : α} {s : List α} :
    closing b e n <+: c :: s ↔ c = b ∧ List.replicate n e ++ [b] <+: s := by
  rw [closing_eq, List.cons_prefix_cons, eq_comm]

/-- The rest of a mark stands at the head of `s` exactly when the run of `e` there
has its length and `b` comes next. -/
theorem run_prefix_iff [DecidableEq α] (hbe : b ≠ e) {n : Nat} {s : List α} :
    List.replicate n e ++ [b] <+: s ↔
      (s.takeWhile (· = e)).length = n ∧ (s.dropWhile (· = e)).head? = some b := by
  induction s generalizing n with
  | nil => simp
  | cons c s ih =>
      by_cases hc : c = e
      · cases n with
        | zero => simp [hc, List.cons_prefix_cons, hbe]
        | succ n => simp [hc, List.replicate_succ, List.cons_prefix_cons, ih]
      · cases n with
        | zero =>
            simp only [List.replicate_zero, List.nil_append, List.cons_prefix_cons,
              List.nil_prefix, and_true]
            simp [hc, @eq_comm _ b c]
        | succ n => simp [List.replicate_succ, List.cons_prefix_cons, hc, Ne.symm hc]

theorem takeWhile_run [DecidableEq α] (hbe : b ≠ e) (n : Nat) (s : List α) :
    (List.replicate n e ++ b :: s).takeWhile (· = e) = List.replicate n e := by
  induction n with
  | zero => simp [hbe]
  | succ n ih => simp [List.replicate_succ, ih]

theorem dropWhile_run [DecidableEq α] (hbe : b ≠ e) (n : Nat) (s : List α) :
    (List.replicate n e ++ b :: s).dropWhile (· = e) = b :: s := by
  induction n with
  | zero => simp [hbe]
  | succ n ih => simp [List.replicate_succ, ih]

/-- A mark cut in two, the second part opening with `b`: the cut is right before
the last symbol. -/
theorem closing_split (hbe : b ≠ e) {n : Nat} {u v : List α}
    (h : closing b e n = u ++ b :: v) (hu : u ≠ []) : u = closingStem b e n := by
  obtain ⟨a, u', rfl⟩ := List.exists_cons_of_ne_nil hu
  rw [closing_eq, List.cons_append, List.cons.injEq] at h
  obtain ⟨rfl, htail⟩ := h
  have hlen : u'.length + v.length = n := by
    have := congrArg List.length htail
    simp at this
    omega
  -- the symbol at the cut is `b`; among the first `n` there are only `e`
  have hcut : u'.length = n := by
    by_contra hne
    have hlt : u'.length < n := by omega
    have hget : (List.replicate n e ++ [b])[u'.length]? = (u' ++ b :: v)[u'.length]? := by
      rw [htail]
    simp [List.getElem?_append, hlt] at hget
    exact hbe hget.symm
  have hu' : u' = List.replicate n e := by
    have := congrArg (List.take n) htail
    simpa [← hcut] using this.symm
  rw [hu', closingStem]

/-- An occurrence of the mark that starts inside the body stands in the body or
borrows the first symbol of the writer's mark. -/
theorem exists_early_iff (hbe : b ≠ e) (n : Nat) (t r : List α) :
    (∃ j < t.length, closing b e n <+: (t ++ (closing b e n ++ r)).drop j) ↔
      closing b e n <:+: t ∨ closingStem b e n <:+ t := by
  constructor
  · rintro ⟨j, hj, hpre⟩
    rw [List.drop_append_of_le_length hj.le] at hpre
    have hne : t.drop j ≠ [] := by simpa using hj
    by_cases hlen : (closing b e n).length ≤ (t.drop j).length
    · have hin : closing b e n <+: t.drop j :=
        List.prefix_of_prefix_length_le hpre (List.prefix_append _ _) hlen
      exact Or.inl (hin.isInfix.trans (List.drop_suffix j t).isInfix)
    · have hout : t.drop j <+: closing b e n :=
        List.prefix_of_prefix_length_le (List.prefix_append _ _) hpre (by omega)
      obtain ⟨v, hv⟩ := hout
      have hvne : v ≠ [] := by
        rintro rfl
        have := congrArg List.length hv
        simp at this hlen
        omega
      obtain ⟨a, v', rfl⟩ := List.exists_cons_of_ne_nil hvne
      have ha : a = b := by
        rw [← hv, List.prefix_append_right_inj, hv, closing_eq, List.cons_append] at hpre
        exact (List.cons_prefix_cons.mp hpre).1
      subst ha
      have hstem := closing_split hbe hv.symm hne
      exact Or.inr (hstem ▸ List.drop_suffix j t)
  · rintro (⟨x, y, rfl⟩ | ⟨x, rfl⟩)
    · have hlt : x.length < (x ++ closing b e n ++ y).length := by
        rw [List.length_append, List.length_append, length_closing]
        omega
      refine ⟨x.length, hlt, ?_⟩
      simp only [List.append_assoc, List.drop_left]
      exact List.prefix_append _ _
    · refine ⟨x.length, by simp, ?_⟩
      simp only [List.append_assoc, List.drop_left, closing_eq, closingStem]
      simp

/-- The writer's mark is the first one exactly when no mark of its level stands
in the body and the body does not end in the mark's stem. -/
theorem cutAt_closing_iff [DecidableEq α] (hbe : b ≠ e) {n : Nat} {t r : List α} :
    cutAt (closing b e n) (t ++ (closing b e n ++ r)) = some (t, r) ↔
      ¬ closing b e n <:+: t ∧ ¬ closingStem b e n <:+ t := by
  rw [cutAt_append_iff (closing_ne_nil b e n), ← not_or, ← exists_early_iff hbe n t r]
  simp

/-! ## The level a writer takes -/

/-- `n` is one more than the highest level of a mark in `t`, and `0` if there is
no mark in `t`. -/
structure IsLevel (b e : α) (t : List α) (n : Nat) : Prop where
  above : ∀ k, closing b e k <:+: t → k < n
  least : n = 0 ∨ closing b e (n - 1) <:+: t

theorem IsLevel.unique {t : List α} {m n : Nat} (hm : IsLevel b e t m) (hn : IsLevel b e t n) :
    m = n := by
  rcases hm.least with rfl | hmt <;> rcases hn.least with rfl | hnt
  · rfl
  · exact absurd (hm.above _ hnt) (Nat.not_lt_zero _)
  · exact absurd (hn.above _ hmt) (Nat.not_lt_zero _)
  · have h1 := hm.above _ hnt
    have h2 := hn.above _ hmt
    omega

/-- At the writer's level no mark stands in the body: only the stem can do harm. -/
theorem IsLevel.cutAt_iff [DecidableEq α] (hbe : b ≠ e) {n : Nat} {t r : List α}
    (h : IsLevel b e t n) :
    cutAt (closing b e n) (t ++ (closing b e n ++ r)) = some (t, r) ↔
      ¬ closingStem b e n <:+ t := by
  rw [cutAt_closing_iff hbe]
  have hno : ¬ closing b e n <:+: t := fun hin => absurd (h.above n hin) (Nat.lt_irrefl n)
  exact ⟨And.right, fun hs => ⟨hno, hs⟩⟩

end LongBracket

end Tmg.Lib
