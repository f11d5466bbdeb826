/-
# `Tmg.Lib.Block` — blocks of memory, grown by their allocator

A block is the list of its cells, `none` for one that nothing was written to; a pointer is
an `Option` of a block, `none` for NULL.  A write outside the block, or through NULL, has no
result.  The allocator grants some sizes and refuses others, and none above its largest.

The lemmas are about a block that is filled up to some point, `s.map some ++ r`: growing
keeps `s`, and writing behind `s` takes cells of `r`.
-/
import Mathlib.Data.List.Basic
import Mathlib.Tactic.Common

namespace Tmg.Lib

/-- A block of memory. -/
abbrev Block (β : Type*) := List (Option β)

/-- Which sizes the allocator grants. -/
structure Allocator (largest : Nat) where
  grants : Nat → Bool
  bounded : ∀ n, grants n → n ≤ largest

namespace Block

variable {β : Type*} {largest : Nat}

/-- The block moved to one of `n` cells. -/
def resized (block : Block β) (n : Nat) : Block β :=
  block.take n ++ List.replicate (n - block.length) none

/-- `realloc(p, n)`; `malloc(n)` is `realloc(NULL, n)`. -/
def realloc (A : Allocator largest) (p : Option (Block β)) (n : Nat) : Option (Block β) :=
  if A.grants n then some (resized (p.getD []) n) else none

/-- `p[i] = c` -/
def store : Option (Block β) → Nat → β → Option (Block β)
  | none, _, _ => none
  | some block, i, c => if i < block.length then some (block.set i (some c)) else none

/-- `memcpy(p + i, cs, n)`, for the `n` cells `cs`. -/
def memcpy : Option (Block β) → Nat → List β → Option (Block β)
  | none, _, _ => none
  | some block, i, cs =>
      if i + cs.length ≤ block.length then
        some (block.take i ++ (cs.map some ++ block.drop (i + cs.length)))
      else none

theorem length_resized (block : Block β) (n : Nat) : (resized block n).length = n := by
  simp only [resized, List.length_append, List.length_take, List.length_replicate]
  omega

theorem realloc_granted {A : Allocator largest} {n : Nat} (h : A.grants n) (p : Option (Block β)) :
    realloc A p n = some (resized (p.getD []) n) := if_pos h

theorem realloc_refused {A : Allocator largest} {n : Nat} (h : ¬ A.grants n) (p : Option (Block β)) :
    realloc A p n = none := if_neg h

theorem realloc_length_le {A : Allocator largest} {p : Option (Block β)} {n : Nat}
    {block : Block β} (h : realloc A p n = some block) : block.length ≤ largest := by
  by_cases hn : A.grants n = true
  · rw [realloc_granted hn] at h
    rw [← Option.some.inj h, length_resized]
    exact A.bounded n hn
  · rw [realloc_refused hn] at h
    cases h

/-- A block that grows keeps what was written. -/
theorem resized_filled {s : List β} {n : Nat} (h : s.length ≤ n) (r : Block β) :
    resized (s.map some ++ r) n = s.map some ++ resized r (n - s.length) := by
  have htake : (s.map some).take n = s.map some := List.take_of_length_le (by simpa using h)
  rw [resized, resized, List.take_append, htake, List.length_append, List.length_map,
    List.append_assoc, Nat.sub_add_eq]

theorem store_filled (s : List β) (x : Option β) (r : Block β) (c : β) :
    store (some (s.map some ++ x :: r)) s.length c = some (s.map some ++ some c :: r) := by
  have hset : (s.map some ++ x :: r).set s.length (some c) = s.map some ++ some c :: r := by
    rw [List.set_append_right _ _ (by simp), List.length_map, Nat.sub_self]
    rfl
  rw [store, if_pos (by simp), hset]

theorem store_outside {block : Block β} {i : Nat} (h : block.length ≤ i) (c : β) :
    store (some block) i c = none := if_neg (Nat.not_lt.mpr h)

theorem memcpy_filled (s : List β) {r : Block β} {cs : List β} (h : cs.length ≤ r.length) :
    memcpy (some (s.map some ++ r)) s.length cs
      = some ((s ++ cs).map some ++ r.drop cs.length) := by
  have htake : (s.map some ++ r).take s.length = s.map some := by simp
  have hdrop : (s.map some ++ r).drop (s.length + cs.length) = r.drop cs.length := by
    rw [← List.drop_drop]
    simp
  rw [memcpy, if_pos (by simpa using h), htake, hdrop, List.map_append, List.append_assoc]

theorem memcpy_outside {block : Block β} {i : Nat} {cs : List β}
    (h : block.length < i + cs.length) : memcpy (some block) i cs = none :=
  if_neg (Nat.not_le.mpr h)

end Block

end Tmg.Lib
