/-
# `Tmg.Lib.Stream` — a buffered output stream whose calls can fail

Writing through a buffer separates two moments: a symbol is *accepted* when it
enters the buffer and *written* when it leaves it.  Either can stop short, and
the two calls report it in their own way:

| call | stops short by | reports success when |
| :-- | :-- | :-- |
| `Stream.put` | accepting a part of what it is given | it accepted all of it |
| `Stream.close` | writing a part of what is pending | it wrote all of it |

How far each call gets is given from outside (`Transfer`).  `close_put_eq_iff` is the
rule a caller needs: a fresh stream that is put `xs` and closed holds `xs` exactly
when both calls reported success.  One report alone says nothing.  It is the same with several
texts (`close_putAll_eq_iff`).
-/
import Mathlib.Data.List.Basic
import Mathlib.Tactic.Common

namespace Tmg.Lib

variable {α : Type*}

/-- An open stream: what the file holds, and what waits in the buffer. -/
structure Stream (α : Type*) where
  written : List α
  pending : List α
deriving Repr

/-- How far a `put` gets: the symbols it accepts, and those it moves from the buffer
to the file. -/
structure Transfer where
  accepted : Nat
  flushed : Nat
deriving DecidableEq, Repr

namespace Stream

/-- A stream on an empty file. -/
def fresh : Stream α := ⟨[], []⟩

/-- `xs` is put into the stream; the flag reports that all of it was accepted. -/
def put (s : Stream α) (xs : List α) (t : Transfer) : Stream α × Bool :=
  let buf := s.pending ++ xs.take t.accepted
  (⟨s.written ++ buf.take t.flushed, buf.drop t.flushed⟩, decide (xs.length ≤ t.accepted))

/-- What is pending is written, as far as `n` symbols; the flag reports that this was
all. -/
def close (s : Stream α) (n : Nat) : List α × Bool :=
  (s.written ++ s.pending.take n, decide (s.pending.length ≤ n))

/-- What a fresh stream leaves in the file. -/
theorem close_put_fst (xs : List α) (t : Transfer) (n : Nat) :
    ((fresh.put xs t).1.close n).1 = (xs.take t.accepted).take (t.flushed + n) := by
  simp only [fresh, put, close, List.nil_append]
  exact List.take_add.symm

/-- **The file holds what was put exactly when both calls report success.** -/
theorem close_put_eq_iff (xs : List α) (t : Transfer) (n : Nat) :
    ((fresh.put xs t).1.close n).1 = xs ↔
      (fresh.put xs t).2 = true ∧ ((fresh.put xs t).1.close n).2 = true := by
  rw [close_put_fst, List.take_take]
  constructor
  · intro h
    have hlen := congrArg List.length h
    rw [List.length_take] at hlen
    refine ⟨decide_eq_true (by omega), decide_eq_true ?_⟩
    simp only [fresh, put, List.nil_append, List.length_drop, List.length_take]
    omega
  · rintro ⟨hput, hclose⟩
    have hput : xs.length ≤ t.accepted := of_decide_eq_true hput
    have hclose := of_decide_eq_true hclose
    simp only [fresh, put, List.nil_append, List.length_drop, List.length_take] at hclose
    exact List.take_of_length_le (by omega)

/-! ## Several texts -/

/-- What was accepted, in order. -/
def content (s : Stream α) : List α := s.written ++ s.pending

theorem content_put (s : Stream α) (xs : List α) (t : Transfer) :
    (s.put xs t).1.content = s.content ++ xs.take t.accepted := by
  simp only [content, put, List.append_assoc, List.take_append_drop]

/-- Texts are put one after the other, up to one that is not accepted whole. -/
def putAll (s : Stream α) : List (List α × Transfer) → Stream α × Bool
  | [] => (s, true)
  | (xs, t) :: puts => if (s.put xs t).2 then (s.put xs t).1.putAll puts else ((s.put xs t).1, false)

/-- All texts are accepted, or less than all of them. -/
theorem content_putAll (puts : List (List α × Transfer)) (s : Stream α) :
    if (s.putAll puts).2 then (s.putAll puts).1.content = s.content ++ (puts.map Prod.fst).flatten
    else (s.putAll puts).1.content.length < (s.content ++ (puts.map Prod.fst).flatten).length := by
  induction puts generalizing s with
  | nil => simp [putAll]
  | cons p puts ih =>
      obtain ⟨xs, t⟩ := p
      have hput := content_put s xs t
      rw [putAll, List.map_cons, List.flatten_cons]
      by_cases hok : (s.put xs t).2 = true
      · have hall : xs.take t.accepted = xs := List.take_of_length_le (of_decide_eq_true hok)
        have hrest := ih (s.put xs t).1
        rw [hput, hall, List.append_assoc] at hrest
        rw [if_pos hok]
        exact hrest
      · have hshort : t.accepted < xs.length := by simpa [put] using hok
        rw [if_neg hok, if_neg (by simp), hput]
        simp only [List.length_append, List.length_take]
        omega

/-- **The file holds all texts exactly when all calls report success.** -/
theorem close_putAll_eq_iff (puts : List (List α × Transfer)) (n : Nat) :
    ((fresh.putAll puts).1.close n).1 = (puts.map Prod.fst).flatten ↔
      (fresh.putAll puts).2 = true ∧ ((fresh.putAll puts).1.close n).2 = true := by
  have hput := content_putAll puts (fresh : Stream α)
  have hfresh : (fresh : Stream α).content = [] := rfl
  rw [hfresh, List.nil_append] at hput
  generalize fresh.putAll puts = out at hput
  constructor
  · intro h
    have hlen := congrArg List.length h
    simp only [close, List.length_append, List.length_take] at hlen
    split at hput
    · next hok =>
        rw [← hput] at hlen
        simp only [content, List.length_append] at hlen
        exact ⟨hok, decide_eq_true (by omega)⟩
    · simp only [content, List.length_append] at hput
      omega
  · rintro ⟨hok, hclose⟩
    rw [if_pos hok] at hput
    have hlen : out.1.pending.length ≤ n := of_decide_eq_true hclose
    rw [close, List.take_of_length_le hlen]
    exact hput

end Stream

end Tmg.Lib
