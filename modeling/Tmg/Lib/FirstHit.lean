/-
# `Tmg.Lib.FirstHit` — searches that stop at the first hit

A loop that leaves at the first entry it can decide is `findSome? f`, `f` being what an
entry decides.  The two questions about such a loop are which entry it stops at, and
whether that depends on the order of the entries.  It does not exactly when all entries
that decide anything decide the same (`findSome?_perm_iff`).

A search that notes down every entry it passes over is `searchNoting`; it can be done piece
by piece (`searchNoting_append`).
-/
import Mathlib.Data.List.Perm.Basic

namespace Tmg.Lib

variable {α β : Type*} {f : α → Option β}

/-- Entries that decide anything decide the same. -/
def HitsAgree (f : α → Option β) (xs : List α) : Prop :=
  ∀ x ∈ xs, ∀ y ∈ xs, ∀ b c, f x = some b → f y = some c → b = c

theorem findSome?_perm {xs ys : List α} (h : HitsAgree f xs) (hp : ys.Perm xs) :
    ys.findSome? f = xs.findSome? f := by
  cases hxs : xs.findSome? f with
  | none =>
      rw [List.findSome?_eq_none_iff] at hxs ⊢
      exact fun y hy => hxs y (hp.mem_iff.mp hy)
  | some b =>
      obtain ⟨x, hx, hb⟩ := List.exists_of_findSome?_eq_some hxs
      cases hys : ys.findSome? f with
      | none =>
          rw [List.findSome?_eq_none_iff] at hys
          rw [hys x (hp.mem_iff.mpr hx)] at hb
          exact hb
      | some c =>
          obtain ⟨y, hy, hc⟩ := List.exists_of_findSome?_eq_some hys
          rw [h y (hp.mem_iff.mp hy) x hx c b hc hb]

/-- What an entry decides is what the search finds when the entry comes first. -/
theorem exists_perm_findSome? {xs : List α} {x : α} {b : β} (hx : x ∈ xs) (hb : f x = some b) :
    ∃ ys : List α, ys.Perm xs ∧ ys.findSome? f = some b := by
  obtain ⟨s, t, rfl⟩ := List.append_of_mem hx
  exact ⟨x :: (s ++ t), List.perm_middle.symm, by rw [List.findSome?_cons, hb]⟩

/-- **The first hit is the same in every order exactly when the hits agree.** -/
theorem findSome?_perm_iff {xs : List α} :
    (∀ ys : List α, ys.Perm xs → ys.findSome? f = xs.findSome? f) ↔ HitsAgree f xs := by
  constructor
  · intro h x hx y hy b c hb hc
    obtain ⟨s, hs, hsb⟩ := exists_perm_findSome? hx hb
    obtain ⟨t, ht, htc⟩ := exists_perm_findSome? hy hc
    rw [h s hs] at hsb
    rw [h t ht] at htc
    exact Option.some.inj (hsb.symm.trans htc)
  · exact fun h ys hp => findSome?_perm h hp

/-- A default that is none of the hits tells a search without a hit from the others. -/
theorem getD_inj {o o' : Option β} {d : β} (h : o ≠ some d) (h' : o' ≠ some d) :
    o.getD d = o'.getD d ↔ o = o' := by
  cases o with
  | none =>
      cases o' with
      | none => simp
      | some b => simpa [eq_comm] using h'
  | some a =>
      cases o' with
      | none => simpa using h
      | some b => simp

/-! ## Two places for each entry -/

/-- A search that looks at two places for each entry stops at the first entry with a hit. -/
theorem find?_flatMap_pair (hit : β → Bool) (f g : α → β) (xs : List α) :
    (xs.flatMap fun x => [f x, g x]).find? hit =
      (xs.find? fun x => hit (f x) || hit (g x)).map fun x => if hit (f x) then f x else g x := by
  induction xs with
  | nil => rfl
  | cons x xs ih =>
      rw [List.flatMap_cons, List.find?_append, ih]
      cases hf : hit (f x) with
      | true => simp [hf]
      | false => cases hg : hit (g x) <;> simp [hf, hg]

/-! ## Searches that note what they pass over -/

section Noting

variable {hit : α → Bool} {note : α → List β}

/-- The first entry that is hit, or, where there is none, the notes with one for every entry
behind them. -/
def searchNoting (hit : α → Bool) (note : α → List β) (xs : List α) (notes : List β) :
    α ⊕ List β :=
  match xs.find? hit with
  | some x => .inl x
  | none => .inr (notes ++ xs.flatMap note)

@[simp] theorem searchNoting_nil (notes : List β) :
    searchNoting hit note [] notes = .inr notes := by
  simp [searchNoting]

theorem searchNoting_cons_of_pos {x : α} (h : hit x = true) (xs : List α) (notes : List β) :
    searchNoting hit note (x :: xs) notes = .inl x := by
  simp [searchNoting, h]

theorem searchNoting_cons_of_neg {x : α} (h : ¬ hit x = true) (xs : List α) (notes : List β) :
    searchNoting hit note (x :: xs) notes = searchNoting hit note xs (notes ++ note x) := by
  rw [searchNoting, searchNoting, List.find?_cons_of_neg h, List.flatMap_cons, List.append_assoc]

theorem searchNoting_append (xs ys : List α) (notes : List β) :
    searchNoting hit note (xs ++ ys) notes =
      (searchNoting hit note xs notes).elim .inl (searchNoting hit note ys) := by
  induction xs generalizing notes with
  | nil => simp
  | cons x xs ih =>
      rw [List.cons_append]
      by_cases h : hit x = true
      · rw [searchNoting_cons_of_pos h, searchNoting_cons_of_pos h]
        rfl
      · rw [searchNoting_cons_of_neg h, searchNoting_cons_of_neg h, ih]

end Noting

end Tmg.Lib
