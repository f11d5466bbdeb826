/-
# `Tmg.Lib.Join` — a list written out, with what stands between neighbours

`joinWith text sep` writes the elements of a list one after the other; what stands between
two neighbours is a function of the two.

    x₁ x₂ x₃      text x₁ ++ sep x₁ x₂ ++ text x₂ ++ sep x₂ x₃ ++ text x₃

| | |
| :-- | :-- |
| `joinWith_append_cons` | a join of two parts, with one separator between them |
| `joinWith_glue` | one separator wherever `r` fails: the maximal runs of `r`, intercalated |
| `joinAfter_eq_iff` | where one separator is never shorter than the other, the joins are the same only if the separators are |
| `Stands.eq_iff` | an element that stands for a part of the list, joined on its own |
-/
import Mathlib.Data.List.Forall2
import Mathlib.Data.List.SplitBy
import Mathlib.Tactic.Common

namespace Tmg.Lib

universe u v

variable {α : Type u} {β : Type v} (text : α → List β) (sep : α → α → List β)

/-- What is in a list put together is in the separator or in a part. -/
theorem mem_intercalate {s : List β} {ls : List (List β)} {b : β} (h : b ∈ s.intercalate ls) :
    b ∈ s ∨ ∃ l ∈ ls, b ∈ l := by
  induction ls with
  | nil => exact absurd h (by simp)
  | cons l ls ih =>
      cases ls with
      | nil =>
          rw [List.intercalate_singleton] at h
          exact .inr ⟨l, List.mem_cons_self, h⟩
      | cons l' ls =>
          rw [List.intercalate_cons_cons, List.mem_append, List.mem_append] at h
          rcases h with (h | h) | h
          · exact .inr ⟨l, List.mem_cons_self, h⟩
          · exact .inl h
          · rcases ih h with h | ⟨m, hm, hmem⟩
            · exact .inl h
            · exact .inr ⟨m, List.mem_cons_of_mem l hm, hmem⟩

/-- And every part is in it. -/
theorem mem_intercalate_of_mem {s l : List β} {ls : List (List β)} {b : β} (hl : l ∈ ls)
    (hb : b ∈ l) : b ∈ s.intercalate ls := by
  induction ls with
  | nil => exact absurd hl (by simp)
  | cons k ls ih =>
      cases ls with
      | nil =>
          rw [List.intercalate_singleton, ← List.mem_singleton.mp hl]
          exact hb
      | cons k' ls =>
          rw [List.intercalate_cons_cons, List.mem_append, List.mem_append]
          rcases List.mem_cons.mp hl with rfl | hl
          · exact .inl (.inl hb)
          · exact .inr (ih hl)

/-- What is written behind `x`. -/
def joinAfter : α → List α → List β
  | _, [] => []
  | x, y :: ys => sep x y ++ (text y ++ joinAfter y ys)

/-- A list, written out. -/
def joinWith : List α → List β
  | [] => []
  | x :: xs => text x ++ joinAfter text sep x xs

variable {text sep}

theorem joinAfter_append (ys : List α) :
    ∀ (xs : List α) (x : α), joinAfter text sep x (xs ++ ys)
      = joinAfter text sep x xs ++ joinAfter text sep (xs.getLastD x) ys
  | [], _ => rfl
  | y :: xs, x => by
      rw [List.cons_append, joinAfter, joinAfter_append ys xs y, joinAfter, List.getLastD_cons]
      simp only [List.append_assoc]

theorem joinWith_append_cons (x : α) (xs : List α) (y : α) (ys : List α) :
    joinWith text sep (x :: xs ++ y :: ys) = joinWith text sep (x :: xs)
      ++ (sep (xs.getLastD x) y ++ joinWith text sep (y :: ys)) := by
  rw [List.cons_append, joinWith, joinAfter_append, joinAfter, joinWith, joinWith]
  simp only [List.append_assoc]

theorem joinWith_concat (x : α) (xs : List α) (y : α) :
    joinWith text sep (x :: xs ++ [y])
      = joinWith text sep (x :: xs) ++ (sep (xs.getLastD x) y ++ text y) := by
  have hlast : joinWith text sep [y] = text y := List.append_nil _
  rw [joinWith_append_cons, hlast]

/-- Without separators the texts are glued. -/
theorem joinWith_chain :
    ∀ xs : List α, xs.IsChain (fun x y => sep x y = []) → joinWith text sep xs = xs.flatMap text
  | [], _ => rfl
  | [x], _ => by simp [joinWith, joinAfter]
  | x :: y :: xs, h => by
      obtain ⟨hxy, hrest⟩ := List.isChain_cons_cons.mp h
      have ih := joinWith_chain (y :: xs) hrest
      rw [joinWith] at ih ⊢
      rw [joinAfter, hxy, List.nil_append, ih, List.flatMap_cons (x := x)]

/-- Every text is part of the join. -/
theorem mem_joinAfter {x : α} {b : β} (hb : b ∈ text x) :
    ∀ {xs : List α} {y : α}, x ∈ xs → b ∈ joinAfter text sep y xs
  | z :: xs, y, hx => by
      rw [joinAfter, List.mem_append, List.mem_append]
      rcases List.mem_cons.mp hx with rfl | hx
      · exact Or.inr (Or.inl hb)
      · exact Or.inr (Or.inr (mem_joinAfter hb hx))

theorem mem_joinWith {x : α} {b : β} (hb : b ∈ text x) {xs : List α} (hx : x ∈ xs) :
    b ∈ joinWith text sep xs := by
  cases xs with
  | nil => exact absurd hx List.not_mem_nil
  | cons y ys =>
      rw [joinWith, List.mem_append]
      rcases List.mem_cons.mp hx with rfl | hx
      · exact Or.inl hb
      · exact Or.inr (mem_joinAfter hb hx)

theorem infix_joinAfter {x : α} :
    ∀ {xs : List α} {y : α}, x ∈ xs → text x <:+: joinAfter text sep y xs
  | z :: xs, y, hx => by
      rw [joinAfter]
      refine List.infix_append_of_infix_right ?_
      rcases List.mem_cons.mp hx with rfl | hx
      · exact List.infix_append_left
      · exact List.infix_append_of_infix_right (infix_joinAfter hx)

theorem infix_joinWith {x : α} {xs : List α} (hx : x ∈ xs) : text x <:+: joinWith text sep xs := by
  cases xs with
  | nil => exact absurd hx List.not_mem_nil
  | cons y ys =>
      rw [joinWith]
      rcases List.mem_cons.mp hx with rfl | hx
      · exact List.infix_append_left
      · exact List.infix_append_of_infix_right (infix_joinAfter hx)

/-- What holds of all separators holds of the whole if it holds of all texts. -/
theorem all_joinAfter {q : β → Bool} (hsep : ∀ x y, (sep x y).all q = true) :
    ∀ (xs : List α) (x : α), (joinAfter text sep x xs).all q = xs.all fun x => (text x).all q
  | [], _ => rfl
  | y :: ys, x => by
      rw [joinAfter, List.all_append, List.all_append, hsep, all_joinAfter hsep ys y, List.all_cons,
        Bool.true_and]

theorem all_joinWith {q : β → Bool} (hsep : ∀ x y, (sep x y).all q = true) (xs : List α) :
    (joinWith text sep xs).all q = xs.all fun x => (text x).all q := by
  cases xs with
  | nil => rfl
  | cons x xs => rw [joinWith, List.all_append, all_joinAfter hsep, List.all_cons]

/-- Related lists whose texts and separators are the same are joined to the same. -/
theorem joinAfter_congr {R : α → α → Prop} (htext : ∀ x y, R x y → text x = text y)
    (hsep : ∀ x x' y y', R x x' → R y y' → sep x y = sep x' y') :
    ∀ {xs ys : List α} {x y : α}, R x y → List.Forall₂ R xs ys →
      joinAfter text sep x xs = joinAfter text sep y ys
  | _, _, _, _, _, .nil => rfl
  | _, _, _, _, hxy, .cons h hs => by
      rw [joinAfter, joinAfter, hsep _ _ _ _ hxy h, htext _ _ h, joinAfter_congr htext hsep h hs]

theorem joinWith_congr {R : α → α → Prop} (htext : ∀ x y, R x y → text x = text y)
    (hsep : ∀ x x' y y', R x x' → R y y' → sep x y = sep x' y') {xs ys : List α}
    (h : List.Forall₂ R xs ys) : joinWith text sep xs = joinWith text sep ys := by
  cases h with
  | nil => rfl
  | cons hxy h => rw [joinWith, joinWith, htext _ _ hxy, joinAfter_congr htext hsep hxy h]

/-! ## One separator between runs -/

section

variable (r : α → α → Bool) (s : List β)

/-- `s` between neighbours that `r` does not glue. -/
def unlessGlued (x y : α) : List β := if r x y then [] else s

variable {r s}

theorem chain_unlessGlued {g : List α} (h : g.IsChain fun x y => r x y) :
    g.IsChain fun x y => unlessGlued r s x y = [] :=
  h.imp fun _ _ hxy => if_pos hxy

variable (text) in
theorem joinWith_flatten :
    ∀ gs : List (List α), [] ∉ gs → (∀ g ∈ gs, g.IsChain fun x y => r x y) →
      (gs.IsChain fun a b => ∃ ha hb, r (a.getLast ha) (b.head hb) = false) →
        joinWith text (unlessGlued r s) gs.flatten = s.intercalate (gs.map (·.flatMap text))
  | [], _, _, _ => rfl
  | [g], _, hr, _ => by
      have hg := chain_unlessGlued (s := s) (hr g List.mem_cons_self)
      simp only [List.flatten_cons, List.flatten_nil, List.append_nil, List.map_cons, List.map_nil,
        List.intercalate_singleton]
      exact joinWith_chain g hg
  | [] :: _ :: _, hnil, _, _ => absurd List.mem_cons_self hnil
  | _ :: [] :: _, hnil, _, _ => absurd (List.mem_cons_of_mem _ List.mem_cons_self) hnil
  | (x :: xs) :: (y :: ys) :: gs, hnil, hr, hb => by
      obtain ⟨⟨_, _, hxy⟩, hrest⟩ := List.isChain_cons_cons.mp hb
      have ih := joinWith_flatten ((y :: ys) :: gs) (fun h => hnil (List.mem_cons_of_mem _ h))
        (fun g hg => hr g (List.mem_cons_of_mem _ hg)) hrest
      have hg := chain_unlessGlued (s := s) (hr (x :: xs) List.mem_cons_self)
      have hsep : unlessGlued r s (xs.getLastD x) y = s := by
        rw [List.getLast_eq_getLastD, List.head_cons] at hxy
        exact if_neg (by rw [hxy]; exact Bool.false_ne_true)
      have htail : ((y :: ys) :: gs).flatten = y :: (ys ++ gs.flatten) := rfl
      rw [htail] at ih
      rw [List.flatten_cons, htail, joinWith_append_cons, hsep, joinWith_chain _ hg, ih]
      simp only [List.map_cons, List.intercalate_cons_cons, List.append_assoc]

/-- One `s` between two maximal runs of `r`, and nothing within them. -/
theorem joinWith_glue (xs : List α) :
    joinWith text (unlessGlued r s) xs
      = s.intercalate ((xs.splitBy r).map (·.flatMap text)) := by
  have h := joinWith_flatten text (s := s) (xs.splitBy r) (List.nil_notMem_splitBy r xs)
    (fun g hg => List.isChain_of_mem_splitBy hg) (List.isChain_getLast_head_splitBy r xs)
  rwa [List.flatten_splitBy] at h

end

/-! ## A part joined on its own -/

/-- What is written in front of `y` when `xs` stands before it. -/
def lead (text : α → List β) (sep : α → α → List β) (xs : List α) (y : α) : List β :=
  match xs with
  | [] => []
  | x :: xs => joinWith text sep (x :: xs) ++ sep (xs.getLastD x) y

theorem joinWith_append (xs : List α) (y : α) (ys : List α) :
    joinWith text sep (xs ++ y :: ys) = lead text sep xs y ++ joinWith text sep (y :: ys) := by
  cases xs with
  | nil => rfl
  | cons x xs => rw [joinWith_append_cons, lead, List.append_assoc]

theorem joinWith_cons_append (x : α) (xs ys : List α) :
    joinWith text sep (x :: xs ++ ys)
      = joinWith text sep (x :: xs) ++ joinAfter text sep (xs.getLastD x) ys := by
  rw [List.cons_append, joinWith, joinWith, joinAfter_append, List.append_assoc]

/-- Two texts of which neither part is shorter on the right. -/
theorem append_eq_append_iff_of_le {a b a' b' : List β} (ha : a.length ≤ a'.length)
    (hb : b.length ≤ b'.length) : a ++ b = a' ++ b' ↔ a = a' ∧ b = b' := by
  refine ⟨fun h => ?_, fun ⟨h₁, h₂⟩ => by rw [h₁, h₂]⟩
  have hlen := congrArg List.length h
  rw [List.length_append, List.length_append] at hlen
  exact List.append_inj h (by omega)

section

variable {sep' : α → α → List β} (hsep : ∀ x y, (sep x y).length ≤ (sep' x y).length)
include hsep

variable (text) in
theorem joinAfter_length_le :
    ∀ (xs : List α) (x : α),
      (joinAfter text sep x xs).length ≤ (joinAfter text sep' x xs).length
  | [], _ => le_rfl
  | y :: ys, x => by
      have hxy := hsep x y
      have ih := joinAfter_length_le ys y
      simp only [joinAfter, List.length_append]
      omega

variable (text) in
/-- Joins of the same length have separators of the same length. -/
theorem chain_of_joinAfter_length_eq :
    ∀ (xs : List α) (x : α),
      (joinAfter text sep x xs).length = (joinAfter text sep' x xs).length →
        (x :: xs).IsChain fun x y => (sep x y).length = (sep' x y).length
  | [], x, _ => List.isChain_singleton x
  | y :: ys, x, h => by
      have hxy := hsep x y
      have hle := joinAfter_length_le text hsep ys y
      simp only [joinAfter, List.length_append] at h
      exact List.isChain_cons_cons.mpr ⟨by omega, chain_of_joinAfter_length_eq ys y (by omega)⟩

/-- Where one separator is never shorter than the other, the joins are the same only if the
separators are. -/
theorem joinAfter_eq_iff :
    ∀ (xs : List α) (x : α), joinAfter text sep x xs = joinAfter text sep' x xs ↔
      (x :: xs).IsChain fun x y => sep x y = sep' x y
  | [], x => by simp [joinAfter]
  | y :: ys, x => by
      have hrest : (text y ++ joinAfter text sep y ys).length
          ≤ (text y ++ joinAfter text sep' y ys).length := by
        have := joinAfter_length_le text hsep ys y
        simp only [List.length_append]
        omega
      rw [joinAfter, joinAfter, append_eq_append_iff_of_le (hsep x y) hrest, List.append_right_inj,
        joinAfter_eq_iff ys y, List.isChain_cons_cons]

variable (text) in
theorem joinWith_length_le (xs : List α) :
    (joinWith text sep xs).length ≤ (joinWith text sep' xs).length := by
  cases xs with
  | nil => exact le_rfl
  | cons x xs =>
      have := joinAfter_length_le text hsep xs x
      simp only [joinWith, List.length_append]
      omega

end

variable (text) in
/-- What follows `x` and what follows `f`, where `x` never has the longer separator. -/
theorem joinAfter_right_eq_iff {x f : α} (h : ∀ y, (sep x y).length ≤ (sep f y).length)
    (ys : List α) :
    (joinAfter text sep x ys).length ≤ (joinAfter text sep f ys).length ∧
      (joinAfter text sep x ys = joinAfter text sep f ys ↔ ∀ y ∈ ys.head?, sep x y = sep f y) := by
  cases ys with
  | nil => simp [joinAfter]
  | cons y ys => simpa [joinAfter] using h y

variable (text) in
theorem lead_eq_iff {x f : α} (h : ∀ a, (sep a x).length ≤ (sep a f).length) (as : List α) :
    (lead text sep as x).length ≤ (lead text sep as f).length ∧
      (lead text sep as x = lead text sep as f ↔ ∀ a ∈ as.getLast?, sep a x = sep a f) := by
  cases as with
  | nil => simp [lead]
  | cons a as => simpa [lead, List.getLast?_cons] using h _

variable (text) in
/-- What is written behind `x`, up to the last of `xs`, and from there on; and the same if
`xs` is joined by `sep'` and `f` stands at its end. -/
theorem joinAfter_part_eq_iff {sep' : α → α → List β} {l f : α}
    (hin : ∀ a b, (sep a b).length ≤ (sep' a b).length)
    (hright : ∀ b, (sep l b).length ≤ (sep f b).length) (x : α) (xs bs : List α) :
    (joinAfter text sep x xs ++ joinAfter text sep l bs).length
        ≤ (joinAfter text sep' x xs ++ joinAfter text sep f bs).length ∧
      (joinAfter text sep x xs ++ joinAfter text sep l bs
          = joinAfter text sep' x xs ++ joinAfter text sep f bs ↔
        (x :: xs).IsChain (fun a b => sep a b = sep' a b) ∧ ∀ b ∈ bs.head?, sep l b = sep f b) := by
  have hxs := joinAfter_length_le text hin xs x
  obtain ⟨hle, hiff⟩ := joinAfter_right_eq_iff text hright bs
  refine ⟨by simp only [List.length_append]; omega, ?_⟩
  rw [append_eq_append_iff_of_le hxs hle, joinAfter_eq_iff hin, hiff]

/-- The element `f` stands for the elements `x :: xs`, which it joins with a separator of its
own; the separators beside it are never shorter than theirs. -/
structure Stands (text : α → List β) (sep sep' : α → α → List β) (f x : α) (xs : List α) : Prop where
  text_eq : text f = joinWith text sep' (x :: xs)
  left : ∀ a, (sep a x).length ≤ (sep a f).length
  right : ∀ b, (sep (xs.getLastD x) b).length ≤ (sep f b).length
  inner : ∀ a b, (sep a b).length ≤ (sep' a b).length

theorem joinWith_part (as : List α) (x : α) (xs bs : List α) :
    joinWith text sep (as ++ (x :: xs ++ bs)) = lead text sep as x
      ++ (joinWith text sep (x :: xs) ++ joinAfter text sep (xs.getLastD x) bs) := by
  rw [List.cons_append, joinWith_append, ← List.cons_append, joinWith_cons_append]

section

variable {sep' : α → α → List β} {f x : α} {xs : List α} (h : Stands text sep sep' f x xs)
include h

theorem Stands.joinWith (as bs : List α) :
    joinWith text sep (as ++ f :: bs) = lead text sep as f
      ++ (text x ++ (joinAfter text sep' x xs ++ joinAfter text sep f bs)) := by
  rw [joinWith_append, Lib.joinWith, h.text_eq, Lib.joinWith, List.append_assoc]

/-- **A part joined on its own** makes no difference exactly where no separator does: on its
left, on its right and within it. -/
theorem Stands.eq_iff (as bs : List α) :
    Lib.joinWith text sep (as ++ (x :: xs ++ bs)) = Lib.joinWith text sep (as ++ f :: bs) ↔
      (∀ a ∈ as.getLast?, sep a x = sep a f) ∧
        (x :: xs).IsChain (fun a b => sep a b = sep' a b) ∧
          ∀ b ∈ bs.head?, sep (xs.getLastD x) b = sep f b := by
  obtain ⟨hle, hiff⟩ := lead_eq_iff text h.left as
  obtain ⟨hle', hiff'⟩ := joinAfter_part_eq_iff text h.inner h.right x xs bs
  rw [joinWith_part, h.joinWith, Lib.joinWith, List.append_assoc, append_eq_append_iff_of_le hle, hiff,
    List.append_right_inj, hiff']
  simp only [List.length_append] at hle' ⊢
  omega

theorem Stands.length_le (as bs : List α) :
    (Lib.joinWith text sep (as ++ (x :: xs ++ bs))).length
      ≤ (Lib.joinWith text sep (as ++ f :: bs)).length := by
  have hle := (lead_eq_iff text h.left as).1
  have hle' := (joinAfter_part_eq_iff text h.inner h.right x xs bs).1
  rw [joinWith_part, h.joinWith, Lib.joinWith]
  simp only [List.length_append] at hle hle' ⊢
  omega

end

end Tmg.Lib
