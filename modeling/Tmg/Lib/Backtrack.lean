/-
# `Tmg.Lib.Backtrack` — searches that take back what they tried

A backtracking search is a computation that may raise an error and otherwise finds a result
or nothing.  What it means is the list of all results in the order in which the search would
come upon them: `Finds x l` says that `x` raises nothing and finds the first entry of `l`.
Each way such a search is put together has its rule:

| search | list |
| :-- | :-- |
| `attempt x y`: `y` where `x` finds nothing | `l ++ m` |
| `longestFirst k s n`: `k` behind `n` symbols of `s`, then behind fewer | the suffixes of a run, the shortest first, `flatMap` |
| `shortestFirst f k s`: `k` here, then behind one symbol more that meets `f` | the suffixes of a run, the longest first, `flatMap` |

`runs f s` are these suffixes: what is left of `s` behind none, one, … of the symbols at its
head that meet `f`.
-/
import Mathlib.Data.List.TakeWhile
import Mathlib.Tactic.Common

namespace Tmg.Lib

variable {α β ε : Type*}

/-- A search: it raises an error, or finds something or nothing. -/
abbrev Search (ε β : Type*) := Except ε (Option β)

/-- The search `y` where `x` finds nothing. -/
def attempt (x y : Search ε β) : Search ε β :=
  match x with
  | .error e => .error e
  | .ok (some b) => .ok (some b)
  | .ok none => y

/-- The search finds the first of `l`, or nothing where `l` is empty. -/
def Finds (x : Search ε β) (l : List β) : Prop := x = .ok l.head?

namespace Finds

variable {x y : Search ε β} {l m : List β}

theorem nothing : Finds (.ok none : Search ε β) [] := rfl

theorem one (b : β) : Finds (.ok (some b) : Search ε β) [b] := rfl

theorem attempt (hx : Finds x l) (hy : Finds y m) : Finds (attempt x y) (l ++ m) := by
  rw [Finds] at hx hy
  rw [Finds, hx, List.head?_append]
  cases l.head? with
  | none => exact hy
  | some b => rfl

/-- A search that ends where there is nothing to go on with. -/
theorem elim {o : Option α} {k : α → Search ε β} {g : α → List β}
    (h : ∀ a ∈ o, Finds (k a) (g a)) :
    Finds (o.elim (.ok none) k) (o.toList.flatMap g) := by
  cases o with
  | none => exact nothing
  | some a => simpa using h a rfl

end Finds

/-! ## Runs -/

section Runs

variable (f : α → Bool)

/-- What is left of `s` behind some of the symbols at its head that meet `f`: the longest
first. -/
def runs : List α → List (List α)
  | [] => [[]]
  | c :: s => (c :: s) :: if f c then runs s else []

variable {f}

theorem runs_cons_pos {c : α} (hc : f c = true) (s : List α) :
    runs f (c :: s) = (c :: s) :: runs f s := by
  rw [runs, if_pos hc]

theorem runs_cons_neg {c : α} (hc : f c = false) (s : List α) : runs f (c :: s) = [c :: s] := by
  rw [runs, if_neg (by simp [hc])]

/-- A run that goes on behind `w`. -/
theorem runs_append {w : List α} (hw : ∀ c ∈ w, f c = true) (s : List α) :
    ∃ l, runs f (w ++ s) = l ++ runs f s := by
  induction w with
  | nil => exact ⟨[], rfl⟩
  | cons c w ih =>
      obtain ⟨hc, hw⟩ := List.forall_mem_cons.mp hw
      obtain ⟨l, hl⟩ := ih hw
      exact ⟨(c :: (w ++ s)) :: l, by rw [List.cons_append, runs_cons_pos hc, hl]; rfl⟩

/-- The shortest is what follows the run. -/
theorem head?_reverse_runs (s : List α) : (runs f s).reverse.head? = some (s.dropWhile f) := by
  rw [List.head?_reverse]
  induction s with
  | nil => rfl
  | cons c s ih =>
      cases hc : f c with
      | true =>
          rw [runs_cons_pos hc, List.dropWhile_cons_of_pos hc, List.getLast?_cons, ih]
          rfl
      | false =>
          rw [runs_cons_neg hc, List.dropWhile_cons_of_neg (by simp [hc])]
          rfl

theorem mem_runs {s t : List α} : t ∈ runs f s ↔ ∃ w, s = w ++ t ∧ ∀ c ∈ w, f c = true := by
  induction s with
  | nil =>
      rw [runs, List.mem_singleton]
      constructor
      · rintro rfl
        exact ⟨[], rfl, by simp⟩
      · rintro ⟨w, hw, -⟩
        exact (List.append_eq_nil_iff.mp hw.symm).2
  | cons c s ih =>
      rw [runs, List.mem_cons]
      constructor
      · rintro (rfl | ht)
        · exact ⟨[], rfl, by simp⟩
        · cases hc : f c with
          | false => simp [hc] at ht
          | true =>
              rw [if_pos hc] at ht
              obtain ⟨w, rfl, hw⟩ := ih.mp ht
              exact ⟨c :: w, rfl, List.forall_mem_cons.mpr ⟨hc, hw⟩⟩
      · rintro ⟨w, hs, hw⟩
        cases w with
        | nil => exact .inl hs.symm
        | cons d w =>
            obtain ⟨rfl, rfl⟩ := List.cons.inj hs
            obtain ⟨hc, hw⟩ := List.forall_mem_cons.mp hw
            rw [if_pos hc]
            exact .inr (ih.mpr ⟨w, rfl, hw⟩)

end Runs

/-! ## The two repetitions -/

/-- `k` behind `n` symbols of `s`, then behind fewer. -/
def longestFirst (k : List α → Search ε β) (s : List α) : Nat → Search ε β
  | 0 => k s
  | n + 1 => attempt (k (s.drop (n + 1))) (longestFirst k s n)

/-- `k` at `s`, then behind one more symbol that meets `f`. -/
def shortestFirst (f : α → Bool) (k : List α → Search ε β) : List α → Search ε β
  | [] => k []
  | c :: s => attempt (k (c :: s)) (if f c then shortestFirst f k s else .ok none)

theorem longestFirst_succ (k : List α → Search ε β) (c : α) (s : List α) (n : Nat) :
    longestFirst k (c :: s) (n + 1) = attempt (longestFirst k s n) (k (c :: s)) := by
  have hassoc : ∀ x y z : Search ε β, attempt x (attempt y z) = attempt (attempt x y) z := by
    rintro (_ | _ | _) y z <;> rfl
  induction n with
  | zero => rfl
  | succ n ih =>
      rw [longestFirst, List.drop_succ_cons, ih, hassoc]
      rfl

theorem Finds.longestFirst {f : α → Bool} {k : List α → Search ε β} {g : List α → List β}
    {s : List α} (h : ∀ t ∈ runs f s, Finds (k t) (g t)) :
    Finds (longestFirst k s (s.takeWhile f).length) ((runs f s).reverse.flatMap g) := by
  induction s with
  | nil => simpa [runs, Lib.longestFirst] using h [] (by simp [runs])
  | cons c s ih =>
      have hhere := h (c :: s) (by simp [runs])
      cases hc : f c with
      | true =>
          rw [runs_cons_pos hc] at h ⊢
          have hrest := ih fun t ht => h t (List.mem_cons_of_mem _ ht)
          rw [List.takeWhile_cons_of_pos hc, List.length_cons, longestFirst_succ, List.reverse_cons,
            List.flatMap_append, List.flatMap_singleton]
          exact hrest.attempt hhere
      | false =>
          rw [runs_cons_neg hc, List.takeWhile_cons_of_neg (by simp [hc])]
          simpa [Lib.longestFirst] using hhere

theorem Finds.shortestFirst {f : α → Bool} {k : List α → Search ε β} {g : List α → List β}
    {s : List α} (h : ∀ t ∈ runs f s, Finds (k t) (g t)) :
    Finds (shortestFirst f k s) ((runs f s).flatMap g) := by
  induction s with
  | nil => simpa [runs, Lib.shortestFirst] using h [] (by simp [runs])
  | cons c s ih =>
      have hhere := h (c :: s) (by simp [runs])
      rw [Lib.shortestFirst]
      cases hc : f c with
      | true =>
          rw [runs_cons_pos hc] at h ⊢
          rw [if_pos rfl, List.flatMap_cons]
          exact hhere.attempt (ih fun t ht => h t (List.mem_cons_of_mem _ ht))
      | false =>
          rw [runs_cons_neg hc, if_neg Bool.false_ne_true]
          have hend := hhere.attempt Finds.nothing
          rw [List.append_nil] at hend
          rwa [List.flatMap_singleton]

/-! ## What is found -/

theorem attempt_eq_some {x y : Search ε β} {b : β} (h : attempt x y = .ok (some b)) :
    x = .ok (some b) ∨ y = .ok (some b) := by
  match x with
  | .error e => exact absurd h (by simp [attempt])
  | .ok none => exact .inr h
  | .ok (some c) => exact .inl h

theorem longestFirst_eq_some {k : List α → Search ε β} {s : List α} {n : Nat} {b : β}
    (h : longestFirst k s n = .ok (some b)) : ∃ t, t <:+ s ∧ k t = .ok (some b) := by
  induction n with
  | zero => exact ⟨s, List.suffix_rfl, h⟩
  | succ n ih =>
      rcases attempt_eq_some h with h | h
      · exact ⟨s.drop (n + 1), List.drop_suffix _ _, h⟩
      · exact ih h

theorem shortestFirst_eq_some {f : α → Bool} {k : List α → Search ε β} {s : List α} {b : β}
    (h : shortestFirst f k s = .ok (some b)) : ∃ t, t <:+ s ∧ k t = .ok (some b) := by
  induction s with
  | nil => exact ⟨[], List.suffix_rfl, h⟩
  | cons c s ih =>
      rcases attempt_eq_some h with h | h
      · exact ⟨c :: s, List.suffix_rfl, h⟩
      · split_ifs at h
        · obtain ⟨t, ht, hk⟩ := ih h
          exact ⟨t, ht.trans (List.suffix_cons c s), hk⟩
        · exact absurd h (by simp)

end Tmg.Lib
