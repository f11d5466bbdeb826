/-
# `Tmg.Latex.Fragment` — a fragment in place of a list

A plain list is opened by its parent, a fragment is one child of it: it is rendered by
itself, with a blank line beside its blocks, and is a block to its neighbours as soon as
one of its own pieces is.

    a  { b, \par c }            a b ⏎⏎ c
    a  L.frag(b, \par c)        a ⏎⏎ b ⏎⏎ c

The pieces are the same, so the strings differ only in separators, and a separator that
the fragment has where the list has none is longer.  Whether there is one can be told from
the marks of the children that count, which of them is a block and which is blank
(`seamless`).  Two parents ask for more than that: `\item` removes the blanks at the head
of its body, and an environment looks for items among its children and not into their
fragments (`Parent.transparent`).
-/
import Tmg.Latex.Shape
import Tmg.Latex.Indent

namespace Tmg.Latex

open Tmg Lib

/-! ## Marks -/

/-- A piece that counts: is it a block, and is it blank? -/
structure Mark where
  block : Bool
  blank : Bool
deriving DecidableEq, Repr

/-- The marks of the children that count. -/
def marks (cs : List Val) : List Mark :=
  ((Val.leavesList cs).filter (!·.isEmpty)).map fun c => ⟨c.isBlock, c.isBlank⟩

/-- No separator changes when `xs` becomes a fragment between `before` and `after`, in a
parent that separates by a blank line (`wide`) or by the end of a line. -/
def seamless (wide : Bool) (before xs after : List Mark) : Bool :=
  !xs.any (·.block) ||
    ((before.getLast?.all (·.block) || xs.head?.all (·.block)) &&
      (xs.getLast?.all (·.block) || after.head?.all (·.block)) && (wide || xs.length ≤ 1))

/-- The same, if the blanks at the head are removed afterwards. -/
def seamlessItem (before xs after : List Mark) : Bool :=
  let inked := before.any (!·.blank)
  let seen := if inked then xs else xs.dropWhile (·.blank)
  !xs.any (·.block) ||
    ((!inked || before.getLast?.all (·.block) || xs.head?.all (·.block)) &&
      (seen = [] || xs.getLast?.all (·.block) || after.head?.all (·.block)) &&
        (seen.length ≤ 1 || !seen.any (·.block)))

/-- The mark of a piece. -/
def pieceMark (p : Bytes × Bool) : Mark := ⟨p.2, p.1.all isSpace⟩

theorem marks_of_shapes {cs : List Val} {ps : List (Bytes × Bool)}
    (h : List.Forall₂ Val.Shape (Val.leavesList cs) ps) :
    (ps.filter kept).map pieceMark = marks cs := by
  have hkept := shapes_filter h
  have hmark := hkept.imp fun (c : Val) p hcp =>
    (by rw [pieceMark, hcp.block, hcp.blank] : pieceMark p = ⟨c.isBlock, c.isBlank⟩)
  rw [marks, ← List.forall₂_eq_eq_eq, List.forall₂_map_left_iff, List.forall₂_map_right_iff]
  exact hmark.flip.imp fun _ _ h => h

/-! ## The separators -/

/-- The separator of a parent. -/
def sepOf (wide : Bool) : Bytes := if wide then parSep else ascii "\n"

/-- The pieces of a fragment, as one piece. -/
def fragPiece (ps : List (Bytes × Bool)) : Bytes × Bool :=
  (joinWith (·.1) (unlessGlued bothInline parSep) ps, ps.any (·.2))

theorem sepOf_ne_nil (wide : Bool) : sepOf wide ≠ [] := by cases wide <;> decide

theorem sepOf_length_le (wide : Bool) : (sepOf wide).length ≤ parSep.length := by
  cases wide <;> decide

theorem unlessGlued_length_le {bsep : Bytes} {p q p' q' : Bytes × Bool}
    (h : bothInline p' q' = true → bothInline p q = true) :
    (unlessGlued bothInline bsep p q).length ≤ (unlessGlued bothInline bsep p' q').length := by
  unfold unlessGlued
  split
  · exact Nat.zero_le _
  · next hpq => rw [if_neg fun h' => hpq (h h')]

theorem unlessGlued_eq_iff {bsep : Bytes} (hsep : bsep ≠ []) (p q p' q' : Bytes × Bool) :
    unlessGlued bothInline bsep p q = unlessGlued bothInline bsep p' q'
      ↔ bothInline p q = bothInline p' q' := by
  unfold unlessGlued
  cases bothInline p q <;> cases bothInline p' q' <;> simp [hsep, hsep.symm]

theorem inline_of_any {ps : List (Bytes × Bool)} (h : ps.any (·.2) = false) {p : Bytes × Bool}
    (hp : p ∈ ps) : p.2 = false := by
  simpa using List.any_eq_false.mp h p hp

/-- A fragment stands for its pieces. -/
theorem stands_fragPiece (wide : Bool) (x : Bytes × Bool) (xs : List (Bytes × Bool)) :
    Stands (·.1) (unlessGlued bothInline (sepOf wide)) (unlessGlued bothInline parSep)
      (fragPiece (x :: xs)) x xs where
  text_eq := rfl
  left a := unlessGlued_length_le fun h => by
    rw [bothInline, Bool.and_eq_true, Bool.not_eq_true', Bool.not_eq_true'] at h
    rw [bothInline, h.1, inline_of_any h.2 List.mem_cons_self]
    rfl
  right b := unlessGlued_length_le fun h => by
    rw [bothInline, Bool.and_eq_true, Bool.not_eq_true', Bool.not_eq_true'] at h
    rw [bothInline, h.2, inline_of_any h.1 List.getLastD_mem_cons]
    rfl
  inner a b := by
    unfold unlessGlued
    split
    · exact le_rfl
    · exact sepOf_length_le wide

theorem isChain_bothInline_iff (x : Bytes × Bool) (xs : List (Bytes × Bool)) :
    (x :: xs).IsChain (fun p q => bothInline p q = true) ↔
      xs = [] ∨ (x :: xs).any (·.2) = false := by
  induction xs generalizing x with
  | nil => simp
  | cons y ys ih =>
      rw [List.isChain_cons_cons, ih y]
      cases ys <;> cases hx : x.2 <;> cases hy : y.2 <;> simp [bothInline, hx, hy]

theorem any_pieceMark (ps : List (Bytes × Bool)) :
    (ps.map pieceMark).any (·.block) = ps.any (·.2) := by
  rw [List.any_map]
  rfl

theorem head?_pieceMark (ps : List (Bytes × Bool)) :
    (ps.map pieceMark).head?.all (·.block) = ps.head?.all (·.2) := by
  cases ps <;> rfl

theorem getLast?_pieceMark (ps : List (Bytes × Bool)) :
    (ps.map pieceMark).getLast?.all (·.block) = ps.getLast?.all (·.2) := by
  rw [List.getLast?_map]
  cases ps.getLast? <;> rfl

theorem getLast?_cons_all (x : Bytes × Bool) (xs : List (Bytes × Bool)) :
    (x :: xs).getLast?.all (·.2) = (xs.getLastD x).2 := by
  rw [List.getLast?_cons, List.getLastD_eq_getLast?]
  rfl

/-- Nothing changes in front of the fragment. -/
theorem left_iff (wide : Bool) (as : List (Bytes × Bool)) (x : Bytes × Bool)
    (xs : List (Bytes × Bool)) :
    (∀ a ∈ as.getLast?, unlessGlued bothInline (sepOf wide) a x
        = unlessGlued bothInline (sepOf wide) a (fragPiece (x :: xs))) ↔
      (x :: xs).any (·.2) = false ∨ (as.getLast?.all (·.2) || x.2) = true := by
  simp only [unlessGlued_eq_iff (sepOf_ne_nil wide), bothInline, fragPiece]
  cases hany : (x :: xs).any (·.2) with
  | false => simp [inline_of_any hany List.mem_cons_self]
  | true =>
      cases as.getLast? with
      | none => simp
      | some a => cases ha : a.2 <;> simp [ha]

/-- Nothing changes behind it. -/
theorem right_iff (wide : Bool) (bs : List (Bytes × Bool)) (x : Bytes × Bool)
    (xs : List (Bytes × Bool)) :
    (∀ b ∈ bs.head?, unlessGlued bothInline (sepOf wide) (xs.getLastD x) b
        = unlessGlued bothInline (sepOf wide) (fragPiece (x :: xs)) b) ↔
      (x :: xs).any (·.2) = false ∨ ((xs.getLastD x).2 || bs.head?.all (·.2)) = true := by
  simp only [unlessGlued_eq_iff (sepOf_ne_nil wide), bothInline, fragPiece]
  have hlast : (x :: xs).any (·.2) = false → (xs.getLastD x).2 = false := fun h =>
    inline_of_any h List.getLastD_mem_cons
  generalize xs.getLastD x = l at hlast
  cases hany : (x :: xs).any (·.2) with
  | false => simp [hlast hany]
  | true =>
      cases bs.head? with
      | none => simp
      | some b => cases hb : b.2 <;> simp [hb]

/-- Nothing changes within it. -/
theorem inner_iff (wide : Bool) (x : Bytes × Bool) (xs : List (Bytes × Bool)) :
    (x :: xs).IsChain (fun p q => unlessGlued bothInline (sepOf wide) p q
        = unlessGlued bothInline parSep p q) ↔
      (x :: xs).any (·.2) = false ∨ (wide = true ∨ xs = []) := by
  cases wide with
  | true =>
      refine iff_of_true ?_ (Or.inr (Or.inl rfl))
      exact (List.pairwise_of_forall fun _ _ => rfl).isChain
  | false =>
      have hsep : ∀ p q, unlessGlued bothInline (sepOf false) p q = unlessGlued bothInline parSep p q
          ↔ bothInline p q = true := by
        intro p q
        have hne : sepOf false ≠ parSep := by decide
        cases hpq : bothInline p q <;> simp [unlessGlued, hpq, hne]
      simp only [hsep, isChain_bothInline_iff]
      simp [or_comm]

/-- **A fragment changes no separator** exactly where `seamless` says so. -/
theorem joinWith_fragPiece_iff (wide : Bool) (as bs : List (Bytes × Bool)) (x : Bytes × Bool)
    (xs : List (Bytes × Bool)) :
    joinWith (·.1) (unlessGlued bothInline (sepOf wide)) (as ++ (x :: xs ++ bs))
        = joinWith (·.1) (unlessGlued bothInline (sepOf wide)) (as ++ fragPiece (x :: xs) :: bs) ↔
      seamless wide (as.map pieceMark) ((x :: xs).map pieceMark) (bs.map pieceMark) = true := by
  rw [(stands_fragPiece wide x xs).eq_iff, left_iff, right_iff, inner_iff, seamless, any_pieceMark,
    getLast?_pieceMark, head?_pieceMark, getLast?_pieceMark, head?_pieceMark, getLast?_cons_all]
  cases (x :: xs).any (·.2) with
  | false => simp
  | true => simp [and_comm, and_left_comm]

/-! ### Behind the blanks at the head -/

theorem stripLeft_append_of_blank {a : Bytes} (h : a.all isSpace = true) (b : Bytes) :
    stripLeft (a ++ b) = stripLeft b :=
  List.dropWhile_append_of_pos fun c hc => List.all_eq_true.mp h c hc

theorem stripLeft_append_of_ink {a : Bytes} (h : a.all isSpace = false) (b : Bytes) :
    stripLeft (a ++ b) = stripLeft a ++ b := by
  have hne : (a.dropWhile isSpace).isEmpty = false := by
    rw [Bool.eq_false_iff]
    intro hempty
    rw [List.isEmpty_iff, List.dropWhile_eq_nil_iff] at hempty
    rw [List.all_eq_true.mpr hempty] at h
    exact absurd h (by decide)
  rw [stripLeft, List.dropWhile_append, hne]
  rfl

theorem all_isSpace_sep {bsep : Bytes} (h : bsep.all isSpace = true) (p q : Bytes × Bool) :
    (unlessGlued bothInline bsep p q).all isSpace = true := by
  unfold unlessGlued
  split
  · rfl
  · exact h

/-- Blank pieces, with what separates them from the next. -/
theorem all_isSpace_lead {bsep : Bytes} (hsep : bsep.all isSpace = true)
    {ps : List (Bytes × Bool)} (h : (ps.all fun p => p.1.all isSpace) = true) (q : Bytes × Bool) :
    (lead (·.1) (unlessGlued bothInline bsep) ps q).all isSpace = true := by
  cases ps with
  | nil => rfl
  | cons p ps =>
      rw [lead, List.all_append, all_joinWith (all_isSpace_sep hsep), all_isSpace_sep hsep, h]
      rfl

theorem any_blank_eq (ps : List (Bytes × Bool)) :
    ((ps.map pieceMark).any fun m => !m.blank) = !ps.all fun p => p.1.all isSpace := by
  rw [List.any_map, List.not_all_eq_any_not]
  rfl

/-- What follows a piece does not depend on it but for blanks. -/
theorem stripLeft_joinAfter {bsep : Bytes} (hsep : bsep.all isSpace = true) (p q : Bytes × Bool)
    (ps : List (Bytes × Bool)) :
    stripLeft (joinAfter (·.1) (unlessGlued bothInline bsep) p ps)
      = stripLeft (joinAfter (·.1) (unlessGlued bothInline bsep) q ps) := by
  cases ps with
  | nil => rfl
  | cons r ps =>
      rw [joinAfter, joinAfter, stripLeft_append_of_blank (all_isSpace_sep hsep p r),
        stripLeft_append_of_blank (all_isSpace_sep hsep q r)]

/-- Where something is seen in front of the fragment, nothing changes for `\item`. -/
theorem item_of_inked {as bs : List (Bytes × Bool)} {x : Bytes × Bool} {xs : List (Bytes × Bool)}
    (h : (as.all fun p => p.1.all isSpace) = false) :
    stripLeft (joinWith (·.1) (unlessGlued bothInline (sepOf false)) (as ++ (x :: xs ++ bs)))
        = stripLeft (joinWith (·.1) (unlessGlued bothInline (sepOf false))
            (as ++ fragPiece (x :: xs) :: bs)) ↔
      seamless false (as.map pieceMark) ((x :: xs).map pieceMark) (bs.map pieceMark) = true := by
  rw [← joinWith_fragPiece_iff]
  cases as with
  | nil => exact absurd h (by decide)
  | cons a as =>
      have hink : (joinWith (·.1) (unlessGlued bothInline (sepOf false)) (a :: as)).all isSpace
          = false := by
        rw [all_joinWith (all_isSpace_sep (by decide)), h]
      rw [joinWith_cons_append, joinWith_cons_append, stripLeft_append_of_ink hink,
        stripLeft_append_of_ink hink, List.append_right_inj, List.append_right_inj]

/-- Behind blanks the first piece that is seen begins the join. -/
theorem stripLeft_joinWith_seen {bsep : Bytes} (hb : bsep.all isSpace = true)
    {front : List (Bytes × Bool)} (hfront : (front.all fun p => p.1.all isSpace) = true) {q : Bytes × Bool}
    (hink : q.1.all isSpace = false) (t : List (Bytes × Bool)) (r : Bytes) :
    stripLeft (joinWith (·.1) (unlessGlued bothInline bsep) (front ++ q :: t) ++ r)
      = stripLeft q.1 ++ (joinAfter (·.1) (unlessGlued bothInline bsep) q t ++ r) := by
  rw [joinWith_append, joinWith, List.append_assoc,
    stripLeft_append_of_blank (all_isSpace_lead hb hfront q), List.append_assoc,
    stripLeft_append_of_ink hink]

theorem joinWith_fragPiece (as : List (Bytes × Bool)) (x : Bytes × Bool) (xs bs : List (Bytes × Bool)) :
    joinWith (·.1) (unlessGlued bothInline (sepOf false)) (as ++ fragPiece (x :: xs) :: bs)
      = lead (·.1) (unlessGlued bothInline (sepOf false)) as (fragPiece (x :: xs))
        ++ (joinWith (·.1) (unlessGlued bothInline parSep) (x :: xs)
          ++ joinAfter (·.1) (unlessGlued bothInline (sepOf false)) (fragPiece (x :: xs)) bs) := by
  rw [joinWith_append, joinWith]
  rfl

/-- Where nothing is seen in front of it, the blanks at its head go with them. -/
theorem item_of_blank {as bs : List (Bytes × Bool)} {x : Bytes × Bool} {xs : List (Bytes × Bool)}
    (h : (as.all fun p => p.1.all isSpace) = true) :
    stripLeft (joinWith (·.1) (unlessGlued bothInline (sepOf false)) (as ++ (x :: xs ++ bs)))
        = stripLeft (joinWith (·.1) (unlessGlued bothInline (sepOf false))
            (as ++ fragPiece (x :: xs) :: bs)) ↔
      (x :: xs).any (·.2) = false ∨
        (let seen := (x :: xs).dropWhile fun p => p.1.all isSpace
         (seen = [] ∨ ((xs.getLastD x).2 || bs.head?.all (·.2)) = true) ∧
          (seen.length ≤ 1 ∨ seen.any (·.2) = false)) := by
  have hs : (sepOf false).all isSpace = true := by decide
  have hpp : parSep.all isSpace = true := by decide
  rw [joinWith_part, joinWith_fragPiece, stripLeft_append_of_blank (all_isSpace_lead hs h _),
    stripLeft_append_of_blank (all_isSpace_lead hs h _)]
  have hright := (stands_fragPiece false x xs).right
  have hlast := right_iff false bs x xs
  generalize xs.getLastD x = l at hright hlast ⊢
  obtain ⟨front, hfront, hsplit⟩ : ∃ front : List (Bytes × Bool),
      (front.all fun p => p.1.all isSpace) = true ∧
        x :: xs = front ++ (x :: xs).dropWhile fun p => p.1.all isSpace :=
    ⟨(x :: xs).takeWhile fun p => p.1.all isSpace, List.all_takeWhile,
      List.takeWhile_append_dropWhile.symm⟩
  cases hseen : (x :: xs).dropWhile fun p => p.1.all isSpace with
  | nil =>
      have hblank : ((x :: xs).all fun p => p.1.all isSpace) = true := by
        rw [hsplit, hseen, List.append_nil]
        exact hfront
      refine iff_of_true ?_ (Or.inr ⟨Or.inl rfl, Or.inl (Nat.zero_le _)⟩)
      rw [stripLeft_append_of_blank, stripLeft_append_of_blank]
      · exact stripLeft_joinAfter hs _ _ bs
      · rw [all_joinWith (all_isSpace_sep hpp), hblank]
      · rw [all_joinWith (all_isSpace_sep hs), hblank]
  | cons q t =>
      have hink : q.1.all isSpace = false := by
        have hnot := List.head?_dropWhile_not (fun p : Bytes × Bool => p.1.all isSpace) (x :: xs)
        rw [hseen] at hnot
        exact hnot
      have hany : (x :: xs).any (·.2) = false → (q :: t).any (·.2) = false := by
        intro hnone
        rw [hsplit, hseen, List.any_append, Bool.or_eq_false_iff] at hnone
        exact hnone.2
      rw [hseen] at hsplit
      -- what is seen begins with `q`
      have hjoin : ∀ bsep : Bytes, bsep.all isSpace = true → ∀ r : Bytes,
          stripLeft (joinWith (·.1) (unlessGlued bothInline bsep) (x :: xs) ++ r)
            = stripLeft q.1 ++ (joinAfter (·.1) (unlessGlued bothInline bsep) q t ++ r) := by
        intro bsep hb r
        rw [hsplit, stripLeft_joinWith_seen hb hfront hink]
      rw [hjoin _ hs, hjoin _ hpp, List.append_right_inj,
        (joinAfter_part_eq_iff _ (stands_fragPiece false x xs).inner hright q t bs).2, hlast, inner_iff]
      cases hx : (x :: xs).any (·.2) with
      | false => simp [hany hx]
      | true => cases t <;> simp [and_comm, or_comm]

/-- Where something is seen in front, all separators count. -/
theorem seamlessItem_of_inked {before : List Mark} (h : (before.any fun m => !m.blank) = true)
    (xs after : List Mark) : seamlessItem before xs after = seamless false before xs after := by
  rw [seamlessItem, seamless, h]
  cases hany : xs.any (·.block) with
  | false => rfl
  | true =>
      have hne : decide (xs = []) = false := by
        rw [decide_eq_false_iff_not]
        rintro rfl
        exact Bool.false_ne_true hany
      simp only [if_pos, hne, hany, Bool.not_true, Bool.false_or, Bool.or_false]

theorem seamlessItem_of_blank {before : List Mark} (h : (before.any fun m => !m.blank) = false)
    (xs after : List Mark) :
    seamlessItem before xs after = true ↔ xs.any (·.block) = false ∨
      (let seen := xs.dropWhile (·.blank)
       (seen = [] ∨ (xs.getLast?.all (·.block) || after.head?.all (·.block)) = true) ∧
        (seen.length ≤ 1 ∨ seen.any (·.block) = false)) := by
  rw [seamlessItem, h]
  simp only [Bool.false_eq_true, if_false, Bool.not_false, Bool.true_or, Bool.true_and,
    Bool.or_eq_true, Bool.and_eq_true, Bool.not_eq_true', decide_eq_true_eq, or_assoc]

/-- **A fragment changes nothing behind the blanks at the head** exactly where
`seamlessItem` says so. -/
theorem stripLeft_fragPiece_iff (as bs : List (Bytes × Bool)) (x : Bytes × Bool)
    (xs : List (Bytes × Bool)) :
    stripLeft (joinWith (·.1) (unlessGlued bothInline (sepOf false)) (as ++ (x :: xs ++ bs)))
        = stripLeft (joinWith (·.1) (unlessGlued bothInline (sepOf false))
            (as ++ fragPiece (x :: xs) :: bs)) ↔
      seamlessItem (as.map pieceMark) ((x :: xs).map pieceMark) (bs.map pieceMark) = true := by
  have hblank := any_blank_eq as
  cases h : as.all fun p => p.1.all isSpace with
  | false =>
      rw [h] at hblank
      rw [item_of_inked h, seamlessItem_of_inked hblank]
  | true =>
      have hdrop : ((x :: xs).map pieceMark).dropWhile (·.blank)
          = ((x :: xs).dropWhile fun p => p.1.all isSpace).map pieceMark := List.dropWhile_map ..
      rw [h] at hblank
      rw [item_of_blank h, seamlessItem_of_blank hblank, hdrop, any_pieceMark, getLast?_pieceMark,
        head?_pieceMark, getLast?_cons_all]
      simp only [any_pieceMark, List.length_map, List.map_eq_nil_iff]

/-! ## The children of a parent -/

/-- The pieces of a fragment, if any counts. -/
def fragPieces (ps : List (Bytes × Bool)) : List (Bytes × Bool) :=
  if ps = [] then [] else [fragPiece ps]

/-- The children before, in and behind the fragment, rendered. -/
structure Spliced (wide : Bool) (pre xs post : List Val) (r r' : Bytes × Bool) : Prop where
  pieces : ∃ as ps bs : List (Bytes × Bool),
    as.map pieceMark = marks pre ∧ ps.map pieceMark = marks xs ∧ bs.map pieceMark = marks post ∧
      r.1 = joinWith (·.1) (unlessGlued bothInline (sepOf wide)) (as ++ (ps ++ bs)) ∧
      r'.1 = joinWith (·.1) (unlessGlued bothInline (sepOf wide)) (as ++ (fragPieces ps ++ bs))
  flag : r.2 = r'.2

theorem leavesList_around_list (pre xs post : List Val) :
    Val.leavesList (pre ++ .list .nil xs :: post)
      = Val.leavesList pre ++ (Val.leavesList xs ++ Val.leavesList post) := by
  rw [Val.leavesList_append]
  rfl

theorem leavesList_around_frag (pre xs post : List Val) :
    Val.leavesList (pre ++ .frag xs :: post)
      = Val.leavesList pre ++ ([.frag xs] ++ Val.leavesList post) := by
  rw [Val.leavesList_append]
  rfl

/-- Children that are rendered with a list among them are rendered with the fragment. -/
theorem frag_pieces {pre xs post : List Val} {ctx : Ctx} {qs : List (Bytes × Bool)}
    (hfull : Val.fullList (pre ++ .list .nil xs :: post) = true)
    (hqs : List.Forall₂ (fun c p => renderNode c ctx = .ok p)
      (Val.leavesList (pre ++ .list .nil xs :: post)) qs) :
    ∃ as ps bs : List (Bytes × Bool),
      as.map pieceMark = marks pre ∧ ps.map pieceMark = marks xs ∧ bs.map pieceMark = marks post ∧
        qs.filter kept = as ++ (ps ++ bs) ∧
          ∀ who bsep, renderChildren renderNode (pre ++ .frag xs :: post) ctx who bsep
            = .ok (joinWith (·.1) (unlessGlued bothInline bsep) (as ++ (fragPieces ps ++ bs)),
                qs.any (·.2)) := by
  rw [Val.fullList_append_cons rfl, Bool.and_eq_true, Bool.and_eq_true] at hfull
  obtain ⟨hpre, hxs, hpost⟩ := hfull
  rw [leavesList_around_list] at hqs
  obtain ⟨as, rest, has, hrest, rfl⟩ := forall₂_append_left hqs
  obtain ⟨ps, bs, hps, hbs, rfl⟩ := forall₂_append_left hrest
  -- the fragment is rendered by itself
  have hnode : renderNode (.frag xs) ctx = .ok (glued parSep ps, ps.any (·.2)) := by
    rw [renderNode_eq]
    exact (renderChildren_eq_ok_iff renderNode).mpr ⟨hxs, ps, hps, rfl⟩
  have hkept : [(glued parSep ps, ps.any (·.2))].filter kept = fragPieces (ps.filter kept) := by
    have hnone : ps.filter kept = [] ↔ ps.any kept = false := by
      rw [List.filter_eq_nil_iff, List.any_eq_false]
    have hkg := kept_glued parSep ps
    rw [fragPieces, fragPiece, any_filter_kept, ← glued_eq_joinWith, if_congr hnone rfl rfl]
    cases hany : ps.any kept <;> rw [hany] at hkg <;> simp [hkg]
  refine ⟨as.filter kept, ps.filter kept, bs.filter kept, marks_of_shapes (shapes_of_render has),
    marks_of_shapes (shapes_of_render hps), marks_of_shapes (shapes_of_render hbs), ?_, ?_⟩
  · rw [List.filter_append, List.filter_append]
  · intro who bsep
    refine (renderChildren_eq_ok_iff renderNode).mpr
      ⟨?_, as ++ ([(glued parSep ps, ps.any (·.2))] ++ bs), ?_, Prod.ext ?_ ?_⟩
    · rw [Val.fullList_append_cons rfl, hpre, hpost]
      rfl
    · rw [leavesList_around_frag]
      have hone : List.Forall₂ (fun c p => renderNode c ctx = .ok p) [Val.frag xs] _ :=
        .cons hnode .nil
      exact List.rel_append has (List.rel_append hone hbs)
    · rw [glued_eq_joinWith]
      simp only [List.filter_append, hkept]
    · simp

theorem spliced_of_list (wide : Bool) {pre xs post : List Val} {ctx : Ctx} {who : Bytes}
    {r : Bytes × Bool}
    (h : renderChildren renderNode (pre ++ .list .nil xs :: post) ctx who (sepOf wide) = .ok r) :
    ∃ r', renderChildren renderNode (pre ++ .frag xs :: post) ctx who (sepOf wide) = .ok r' ∧
      Spliced wide pre xs post r r' := by
  obtain ⟨hfull, qs, hqs, rfl⟩ := (renderChildren_eq_ok_iff renderNode).mp h
  obtain ⟨as, ps, bs, has, hps, hbs, hkept, hfrag⟩ := frag_pieces hfull hqs
  refine ⟨_, hfrag who (sepOf wide), ⟨as, ps, bs, has, hps, hbs, ?_, rfl⟩, rfl⟩
  rw [glued_eq_joinWith, hkept]

/-- The bodies are the same exactly where `seamless` says so. -/
theorem Spliced.eq_iff {wide : Bool} {pre xs post : List Val} {r r' : Bytes × Bool}
    (h : Spliced wide pre xs post r r') :
    r.1 = r'.1 ↔ seamless wide (marks pre) (marks xs) (marks post) = true := by
  obtain ⟨as, ps, bs, has, hps, hbs, hr, hr'⟩ := h.pieces
  rw [hr, hr', ← has, ← hps, ← hbs]
  cases ps with
  | nil => exact iff_of_true rfl rfl
  | cons x xs => exact joinWith_fragPiece_iff wide as bs x xs

theorem Spliced.strip_iff {pre xs post : List Val} {r r' : Bytes × Bool}
    (h : Spliced false pre xs post r r') :
    stripLeft r.1 = stripLeft r'.1 ↔ seamlessItem (marks pre) (marks xs) (marks post) = true := by
  obtain ⟨as, ps, bs, has, hps, hbs, hr, hr'⟩ := h.pieces
  rw [hr, hr', ← has, ← hps, ← hbs]
  cases ps with
  | nil =>
      refine iff_of_true rfl ?_
      simp [seamlessItem]
  | cons x xs => exact stripLeft_fragPiece_iff as bs x xs

/-! ## The parents -/

/-- A node that takes children. -/
inductive Parent where
  | frag
  | par
  | env (name : Bytes) (opts : Opts) (args : List Val)
  | sec (cmd : Bytes) (star : Bool) (short label : Option Bytes) (title : List Val)
  | item (term : Val)
  | document (d : DocCfg Val)

/-- The node with its children. -/
def Parent.node : Parent → List Val → Val
  | frag, cs => .frag cs
  | par, cs => .par cs
  | env name opts args, cs => .env name opts args cs
  | sec cmd star short label title, cs => .sec cmd star short label title cs
  | item term, cs => .item term cs
  | document d, cs => .document d cs

/-- Some child is an item. -/
def hasItems (cs : List Val) : Bool := (Val.leavesList cs).any R.isItem

/-- A fragment of `xs` between `pre` and `post` is rendered as the list is. -/
def Parent.transparent (indent : Bool) (pre xs post : List Val) : Parent → Bool
  | env _ _ _ =>
      let outer := hasItems pre || hasItems post
      -- an environment does not see the items in a fragment
      if hasItems xs && !outer then
        !indent && decide (marks pre = [] ∧ marks post = [] ∧ (marks xs).length = 1)
      else seamless (!outer) (marks pre) (marks xs) (marks post)
  | item _ => seamlessItem (marks pre) (marks xs) (marks post)
  | _ => seamless true (marks pre) (marks xs) (marks post)

/-- A body behind a head tells the body. -/
theorem behind_inj (head sep body body' : Bytes) :
    (if body = [] then head else head ++ sep ++ body)
        = (if body' = [] then head else head ++ sep ++ body') ↔ body = body' := by
  refine ⟨fun h => ?_, fun h => by rw [h]⟩
  split at h <;> split at h
  · next hb hb' => rw [hb, hb']
  · next hb' =>
      have hnil : sep ++ body' = [] := by
        rw [List.append_assoc] at h
        exact List.self_eq_append_right.mp h
      exact absurd (List.append_eq_nil_iff.mp hnil).2 hb'
  · next hb _ =>
      have hnil : sep ++ body = [] := by
        rw [List.append_assoc] at h
        exact List.self_eq_append_right.mp h.symm
      exact absurd (List.append_eq_nil_iff.mp hnil).2 hb
  · exact List.append_cancel_left h

/-- The parts of a document's body. -/
theorem parts_eq (s : Bytes) (parts : List Bytes) :
    (if parts.length > 0 then s ++ ascii "\n\n" ++ tableConcat (ascii "\n\n") parts else s)
      = s ++ parts.flatMap (ascii "\n\n" ++ ·) := by
  cases parts with
  | nil => simp
  | cons t ts => simp [tableConcat_cons]

theorem part_inj (sep : Bytes) {body body' : Bytes} :
    ((if body = [] then [] else [body] : List Bytes).flatMap (sep ++ ·)
        = (if body' = [] then [] else [body'] : List Bytes).flatMap (sep ++ ·)) ↔ body = body' := by
  have h := behind_inj [] sep body body'
  rw [← h]
  have hone : ∀ b : Bytes, (if b = [] then [] else [b] : List Bytes).flatMap (sep ++ ·)
      = if b = [] then [] else [] ++ sep ++ b := by
    intro b
    split <;> simp
  rw [hone, hone]

/-! ### One parent at a time -/

section

variable {pre xs post : List Val} {ctx : Ctx} {p : Bytes × Bool}

/-- Two blocks are the same if their texts are. -/
theorem ok_eq_ok_iff {s t : Bytes} :
    (Except.ok (s, true) : Except LatexError (Bytes × Bool)) = .ok (t, true) ↔ t = s := by
  constructor
  · exact fun heq => (congrArg Prod.fst (Except.ok.inj heq)).symm
  · exact fun heq => congrArg Except.ok (Prod.ext heq.symm rfl)

/-- A parent that renders its children and writes `F` of the body. -/
theorem framed_iff (node : List Val → Except LatexError (Bytes × Bool)) (bctx : Ctx) (who : Bytes)
    (wide : Bool) (F : Bytes → Bytes) {Q : Bool}
    (hnode : ∀ cs, node cs
      = renderChildren renderNode cs bctx who (sepOf wide) >>= fun r => .ok (F r.1, true))
    (hF : ∀ r r', Spliced wide pre xs post r r' → (F r.1 = F r'.1 ↔ Q = true))
    (h : node (pre ++ .list .nil xs :: post) = .ok p) :
    node (pre ++ .frag xs :: post) = .ok p ↔ Q = true := by
  rw [hnode] at h ⊢
  obtain ⟨r, hr, hp⟩ := bind_eq_ok_iff.mp h
  obtain ⟨r', hr', hsp⟩ := spliced_of_list _ hr
  rw [hr', ← hF r r' hsp, ← Except.ok.inj hp]
  exact ok_eq_ok_iff

theorem frag_iff (h : renderNode (.frag (pre ++ .list .nil xs :: post)) ctx = .ok p) :
    renderNode (.frag (pre ++ .frag xs :: post)) ctx = .ok p ↔
      seamless true (marks pre) (marks xs) (marks post) = true := by
  rw [renderNode_eq] at h ⊢
  obtain ⟨r, hr, hsp⟩ := spliced_of_list true h
  have hfrag : renderStep renderNode (.frag (pre ++ .frag xs :: post)) ctx = .ok r := hr
  rw [hfrag, ← hsp.eq_iff]
  constructor
  · exact fun heq => (congrArg Prod.fst (Except.ok.inj heq)).symm
  · exact fun heq => congrArg Except.ok (Prod.ext heq.symm hsp.flag.symm)

theorem par_iff (h : renderNode (.par (pre ++ .list .nil xs :: post)) ctx = .ok p) :
    renderNode (.par (pre ++ .frag xs :: post)) ctx = .ok p ↔
      seamless true (marks pre) (marks xs) (marks post) = true := by
  rw [renderNode_eq] at h ⊢
  exact framed_iff (fun cs => R.par renderNode cs ctx) ctx (ascii "par") true id (fun cs => rfl)
    (fun r r' hsp => hsp.eq_iff) h

/-- `head`, once `R.sec` has put it together. -/
def secHead (cmd : Bytes) (star : Bool) (short label : Option Bytes) (title : Bytes) : Bytes :=
  let head := ascii "\\" ++ cmd ++ (if star then ascii "*" else [])
    ++ R.optArg (short.map escape) ++ braced title
  match label with
  | some l => head ++ ascii "\n\\label" ++ braced l
  | none => head

theorem sec_iff {cmd : Bytes} {star : Bool} {short label : Option Bytes} {title : List Val}
    (h : renderNode (.sec cmd star short label title (pre ++ .list .nil xs :: post)) ctx = .ok p) :
    renderNode (.sec cmd star short label title (pre ++ .frag xs :: post)) ctx = .ok p ↔
      seamless true (marks pre) (marks xs) (marks post) = true := by
  rw [renderNode_eq] at h ⊢
  obtain ⟨t, ht, -⟩ := bind_eq_ok_iff.mp h
  refine framed_iff (fun cs => R.sec renderNode cmd star short label title cs ctx) ctx cmd true
    (fun body => if body = [] then secHead cmd star short label t.1
      else secHead cmd star short label t.1 ++ ascii "\n\n" ++ body)
    (fun cs => by rw [R.sec, ht]; rfl) (fun r r' hsp => ?_) h
  exact (behind_inj ..).trans hsp.eq_iff

theorem item_iff {term : Val}
    (h : renderNode (.item term (pre ++ .list .nil xs :: post)) ctx = .ok p) :
    renderNode (.item term (pre ++ .frag xs :: post)) ctx = .ok p ↔
      seamlessItem (marks pre) (marks xs) (marks post) = true := by
  rw [renderNode_eq] at h ⊢
  obtain ⟨t, ht, -⟩ := bind_eq_ok_iff.mp h
  refine framed_iff (fun cs => R.item renderNode term cs ctx) (deeper ctx 1) (ascii "item") false
    (fun body => itemLine (pad ctx) t (stripLeft body))
    (fun cs => by rw [R.item, ht]; rfl) (fun r r' hsp => ?_) h
  have hspaced := behind_inj [] (ascii " ") (stripLeft r.1) (stripLeft r'.1)
  rw [← hsp.strip_iff, itemLine, itemLine, List.append_right_inj]
  exact hspaced

/-- What `R.document` writes around the body. -/
def documentText (d : DocCfg Val) (preamble title author date : List Bytes) (body : Bytes) : Bytes :=
  let cls := ascii "\\documentclass" ++ fmtOpts d.opts ++ braced (d.cls.getD (ascii "article"))
  let head := [cls] ++ d.packages.map R.usepackage ++ preamble ++ title ++ author ++ date
  let maketitle := if d.title.truthy && d.maketitle then [ascii "\\maketitle"] else []
  let toc := if d.toc then [ascii "\\tableofcontents"] else []
  let parts := maketitle ++ toc ++ (if body = [] then [] else [body])
    ++ (d.bib.map R.bibPart).toList
  let s := tableConcat (ascii "\n") head ++ ascii "\n\n" ++ beginTag (ascii "document")
  let s := if parts.length > 0 then s ++ ascii "\n\n" ++ tableConcat (ascii "\n\n") parts else s
  s ++ ascii "\n\n" ++ endTag (ascii "document")

theorem documentText_inj (d : DocCfg Val) (preamble title author date : List Bytes)
    {body body' : Bytes} :
    documentText d preamble title author date body = documentText d preamble title author date body'
      ↔ body = body' := by
  simp only [documentText, parts_eq, List.append_left_inj, List.append_right_inj,
    List.flatMap_append, part_inj]

theorem document_iff {d : DocCfg Val}
    (h : renderNode (.document d (pre ++ .list .nil xs :: post)) ctx = .ok p) :
    renderNode (.document d (pre ++ .frag xs :: post)) ctx = .ok p ↔
      seamless true (marks pre) (marks xs) (marks post) = true := by
  rw [renderNode_eq] at h ⊢
  obtain ⟨preamble, hpre, hrest⟩ := bind_eq_ok_iff.mp h
  obtain ⟨title, htitle, hrest⟩ := bind_eq_ok_iff.mp hrest
  obtain ⟨author, hauthor, hrest⟩ := bind_eq_ok_iff.mp hrest
  obtain ⟨date, hdate, -⟩ := bind_eq_ok_iff.mp hrest
  refine framed_iff (fun cs => R.document renderNode d cs ctx) ctx (ascii "document") true
    (documentText d preamble title author date) (fun cs => ?_) (fun r r' hsp => ?_) h
  · simp only [R.document, hpre, htitle, hauthor, hdate]
    rfl
  · exact (documentText_inj d preamble title author date).trans hsp.eq_iff

end

/-! ### Environments -/

theorem hasItems_list (pre xs post : List Val) :
    hasItems (pre ++ .list .nil xs :: post) = (hasItems xs || (hasItems pre || hasItems post)) := by
  rw [hasItems, leavesList_around_list, List.any_append, List.any_append, Bool.or_left_comm]
  rfl

theorem hasItems_frag (pre xs post : List Val) :
    hasItems (pre ++ .frag xs :: post) = (hasItems pre || hasItems post) := by
  rw [hasItems, leavesList_around_frag, List.any_append, List.any_append]
  rfl

/-- The context of an environment's children. -/
def envCtx (items : Bool) (ctx : Ctx) : Ctx := if items then deeper ctx 1 else ctx

/-- The indentation of an environment. -/
def envPad (items : Bool) (ctx : Ctx) : Bytes := if items then pad ctx else []

/-- What `R.env` writes around the body. -/
def envText (p name : Bytes) (opts : Opts) (args body : Bytes) : Bytes :=
  let s := p ++ beginTag name ++ fmtOpts opts ++ args
  (if body = [] then s else s ++ ascii "\n" ++ body) ++ ascii "\n" ++ p ++ endTag name

theorem envText_inj (p name : Bytes) (opts : Opts) (args : Bytes) {body body' : Bytes} :
    envText p name opts args body = envText p name opts args body' ↔ body = body' := by
  simp only [envText, List.append_left_inj, behind_inj]

/-- `R.env`, once it knows about the items. -/
theorem env_eq {cs : List Val} (hfull : Val.fullList cs = true) (name : Bytes) (opts : Opts)
    (args : List Val) (ctx : Ctx) :
    R.env renderNode name opts args cs ctx = (do
      let a ← envArgs renderNode ctx name args
      let r ← renderChildren renderNode cs (envCtx (hasItems cs) ctx) name (sepOf (!hasItems cs))
      return (envText (envPad (hasItems cs) ctx) name opts a r.1, true)) := by
  have hsep : (if hasItems cs then ascii "\n" else parSep) = sepOf (!hasItems cs) := by
    cases hasItems cs <;> rfl
  rw [R.env, flatten_of_full name hfull, ← hsep]
  rfl

theorem full_of_env {name : Bytes} {opts : Opts} {args cs : List Val} {ctx : Ctx}
    {q : Bytes × Bool} (h : R.env renderNode name opts args cs ctx = .ok q) :
    Val.fullList cs = true := by
  obtain ⟨flat, hflat, -⟩ := bind_eq_ok_iff.mp h
  exact ((flatten_eq_ok_iff name cs flat).mp hflat).1

theorem full_frag {pre xs post : List Val}
    (h : Val.fullList (pre ++ .list .nil xs :: post) = true) :
    Val.fullList (pre ++ .frag xs :: post) = true := by
  rw [Val.fullList_append_cons rfl, Bool.and_eq_true, Bool.and_eq_true] at h
  rw [Val.fullList_append_cons rfl, h.1, h.2.2]
  rfl

variable {pre xs post : List Val} {ctx : Ctx} {p : Bytes × Bool}

/-- An environment that is laid out alike with the list and with the fragment. -/
theorem env_iff_of_same {name : Bytes} {opts : Opts} {args : List Val}
    (hsame : hasItems (pre ++ .list .nil xs :: post) = hasItems (pre ++ .frag xs :: post))
    (h : renderNode (.env name opts args (pre ++ .list .nil xs :: post)) ctx = .ok p) :
    renderNode (.env name opts args (pre ++ .frag xs :: post)) ctx = .ok p ↔
      seamless (!hasItems (pre ++ .frag xs :: post)) (marks pre) (marks xs) (marks post) = true := by
  rw [renderNode_eq] at h ⊢
  have hfull : Val.fullList (pre ++ .list .nil xs :: post) = true := full_of_env h
  change R.env renderNode name opts args _ ctx = _ at h
  change R.env renderNode name opts args _ ctx = _ ↔ _
  rw [env_eq hfull, hsame] at h
  rw [env_eq (full_frag hfull)]
  generalize hasItems (pre ++ .frag xs :: post) = items at h ⊢
  obtain ⟨a, ha, -⟩ := bind_eq_ok_iff.mp h
  rw [ha] at h ⊢
  exact framed_iff (fun cs => renderChildren renderNode cs (envCtx items ctx) name (sepOf (!items))
    >>= fun r => .ok (envText (envPad items ctx) name opts a r.1, true)) _ _ _ _ (fun cs => rfl)
    (fun r r' hsp => (envText_inj _ _ _ _).trans hsp.eq_iff) h

/-! ### An environment whose items are all in the fragment -/

theorem despace_joinAfter {bsep : Bytes} (hsep : despace bsep = bsep) :
    ∀ (qs : List (Bytes × Bool)) (q : Bytes × Bool),
      despace (joinAfter (·.1) (unlessGlued bothInline bsep) q qs)
        = joinAfter (fun p => despace p.1) (unlessGlued bothInline bsep) q qs
  | [], _ => rfl
  | r :: qs, q => by
      have hq : despace (unlessGlued bothInline bsep q r) = unlessGlued bothInline bsep q r := by
        unfold unlessGlued
        split
        · rfl
        · exact hsep
      rw [joinAfter, joinAfter, despace_append, despace_append, hq, despace_joinAfter hsep qs r]

theorem despace_joinWith {bsep : Bytes} (hsep : despace bsep = bsep) (qs : List (Bytes × Bool)) :
    despace (joinWith (·.1) (unlessGlued bothInline bsep) qs)
      = joinWith (fun p => despace p.1) (unlessGlued bothInline bsep) qs := by
  cases qs with
  | nil => rfl
  | cons q qs => rw [joinWith, joinWith, despace_append, despace_joinAfter hsep]

/-- Pieces that are the same up to spaces are joined to the same up to spaces. -/
theorem despace_joinWith_congr (bsep : Bytes) (hsep : despace bsep = bsep)
    {qs qs' : List (Bytes × Bool)} (h : List.Forall₂ (SamePiece (despace · = despace ·)) qs qs') :
    despace (joinWith (·.1) (unlessGlued bothInline bsep) qs)
      = despace (joinWith (·.1) (unlessGlued bothInline bsep) qs') := by
  rw [despace_joinWith hsep, despace_joinWith hsep]
  refine joinWith_congr (fun p q hpq => hpq.1) (fun p p' q q' hp hq => ?_) h
  rw [unlessGlued, unlessGlued, bothInline, bothInline, hp.2.2, hq.2.2]

/-- What is no longer than its fragment, though it has the shorter separators, is one piece. -/
theorem one_piece {as ps bs : List (Bytes × Bool)} (hps : ps ≠ [])
    (hblock : (as ++ (ps ++ bs)).any (·.2) = true)
    (hlen : (despace (joinWith (·.1) (unlessGlued bothInline (sepOf false)) (as ++ (ps ++ bs)))).length
      = (despace (joinWith (·.1) (unlessGlued bothInline parSep)
          (as ++ (fragPieces ps ++ bs)))).length) :
    as = [] ∧ bs = [] ∧ ps.length = 1 := by
  obtain ⟨x, xs, rfl⟩ := List.exists_cons_of_ne_nil hps
  have hstands := stands_fragPiece true x xs
  have hshort : ∀ p q, (unlessGlued bothInline (sepOf false) p q).length
      ≤ (unlessGlued bothInline parSep p q).length := by
    intro p q
    unfold unlessGlued
    split <;> decide
  -- the same bounds hold of the texts without their spaces
  have hspaces : Stands (fun p => despace p.1) (unlessGlued bothInline parSep)
      (unlessGlued bothInline parSep) (fragPiece (x :: xs)) x xs :=
    ⟨despace_joinWith (by decide) (x :: xs), hstands.left, hstands.right, hstands.inner⟩
  have hle := joinWith_length_le (fun p => despace p.1) hshort (as ++ (x :: xs ++ bs))
  have hle' := hspaces.length_le as bs
  rw [despace_joinWith (by decide), despace_joinWith (by decide)] at hlen
  cases hall : as ++ (x :: xs ++ bs) with
  | nil => simp at hall
  | cons k ks =>
      rw [hall] at hlen hle hle' hblock
      have hchain := chain_of_joinAfter_length_eq (fun p => despace p.1) hshort ks k (by
        have hfrag : fragPieces (x :: xs) ++ bs = fragPiece (x :: xs) :: bs := rfl
        rw [hfrag] at hlen
        simp only [joinWith, List.length_append] at hlen hle hle' ⊢
        omega)
      have hinline : (k :: ks).IsChain fun p q => bothInline p q = true := by
        refine hchain.imp fun p q hpq => ?_
        cases hpq' : bothInline p q with
        | true => rfl
        | false =>
            have hlen : (sepOf false).length = parSep.length := by
              simpa [unlessGlued, hpq'] using hpq
            exact absurd hlen (by decide)
      have hks : ks = [] := by
        rcases (isChain_bothInline_iff k ks).mp hinline with hks | hnone
        · exact hks
        · exact absurd (hnone.symm.trans hblock) (by decide)
      have hcount := congrArg List.length hall
      simp only [hks, List.length_append, List.length_cons, List.length_nil] at hcount
      refine ⟨List.eq_nil_of_length_eq_zero (by omega), List.eq_nil_of_length_eq_zero (by omega), ?_⟩
      rw [List.length_cons]
      omega

/-- An item begins with its indentation and a backslash. -/
theorem item_text {c : Val} (hc : R.isItem c = true) {ctx : Ctx} {q : Bytes × Bool}
    (h : renderNode c ctx = .ok q) : ∃ rest, q.1 = pad ctx ++ bsl :: rest := by
  cases c with
  | item term cs =>
      rw [renderNode_eq] at h
      obtain ⟨t, -, h⟩ := bind_eq_ok_iff.mp h
      obtain ⟨r, -, h⟩ := bind_eq_ok_iff.mp h
      refine ⟨ascii "item" ++ (t ++ spaced (stripLeft r.1)), ?_⟩
      rw [← Except.ok.inj h]
      simp [itemLine, ascii, bsl]
  | _ => exact absurd hc Bool.false_ne_true

theorem bsl_mem_of_item {c : Val} (hc : R.isItem c = true) {ctx : Ctx} {q : Bytes × Bool}
    (h : renderNode c ctx = .ok q) : bsl ∈ q.1 := by
  obtain ⟨rest, hrest⟩ := item_text hc h
  rw [hrest]
  exact List.mem_append_right _ List.mem_cons_self

/-- Nothing of a piece is lost in the fragment. -/
theorem mem_of_fragPieces {as ps bs : List (Bytes × Bool)} {q : Bytes × Bool} {b : Byte}
    {sep : Bytes × Bool → Bytes × Bool → Bytes} (hb : b ∈ q.1) (hq : q ∈ as ++ (ps ++ bs)) :
    b ∈ joinWith (·.1) sep (as ++ (fragPieces ps ++ bs)) := by
  rcases List.mem_append.mp hq with has | hq
  · exact mem_joinWith hb (List.mem_append_left _ has)
  · rcases List.mem_append.mp hq with hps | hbs
    · have hfrag : b ∈ (fragPiece ps).1 := mem_joinWith hb hps
      refine mem_joinWith hfrag (List.mem_append_right _ (List.mem_append_left _ ?_))
      rw [fragPieces, if_neg (List.ne_nil_of_mem hps)]
      exact List.mem_singleton_self _
    · exact mem_joinWith hb (List.mem_append_right _ (List.mem_append_right _ hbs))

/-- A block between `\begin` and `\end`, with its indentation and that of the tags. -/
theorem envText_cons (p name : Bytes) (opts : Opts) (a : Bytes) {body : Bytes} (h : body ≠ []) :
    envText p name opts a body = p ++ (bsl :: (ascii "begin" ++ braced name ++ fmtOpts opts ++ a
      ++ (nl :: (body ++ (nl :: (p ++ endTag name)))))) := by
  simp [envText, if_neg h, beginTag, ascii, bsl, nl]

theorem envText_indented_ne {ctx : Ctx} (hindent : ctx.indent = true) (name : Bytes) (opts : Opts)
    (a s t : Bytes) :
    envText (pad ctx) name opts a (pad (deeper ctx 1) ++ bsl :: s)
      ≠ envText [] name opts a (pad ctx ++ bsl :: t) := by
  have hspaces : ∀ c : Ctx, c.indent = true → 0 < c.depth → ∃ u, pad c = 32 :: u := by
    intro c hc hpos
    obtain ⟨k, hk⟩ : ∃ k, 2 * c.depth = k + 1 := ⟨2 * c.depth - 1, by omega⟩
    exact ⟨List.replicate k 32, by rw [pad, if_pos hc, hk, List.replicate_succ]⟩
  obtain ⟨u, hu⟩ := hspaces (deeper ctx 1) hindent (Nat.succ_pos _)
  rw [envText_cons _ _ _ _ (by simp), envText_cons _ _ _ _ (by simp), hu]
  intro h
  cases hd : ctx.depth with
  | zero =>
      have hpad : pad ctx = [] := by rw [pad, if_pos hindent, hd]; rfl
      rw [hpad] at h
      simp [bsl] at h
  | succ d =>
      obtain ⟨v, hv⟩ := hspaces ctx hindent (by omega)
      rw [hv] at h
      simp [bsl] at h

/-- The tags alike, the bodies are the same up to spaces if the environments are. -/
theorem despace_body_of_envText {ctx : Ctx} {name : Bytes} {opts : Opts} {a body body' : Bytes}
    (hbody : body ≠ []) (hbody' : body' ≠ [])
    (h : envText (pad ctx) name opts a body = envText [] name opts a body') :
    despace body = despace body' := by
  have hd := congrArg despace h
  rw [envText_cons _ _ _ _ hbody, envText_cons _ _ _ _ hbody'] at hd
  simpa [despace_append, despace_cons_of_ne, despace_pad, bsl, nl] using hd

/-- What can be rendered in one context can be in any other. -/
theorem rerendered {ctx : Ctx} (ctx' : Ctx) :
    ∀ {cs : List Val} {qs : List (Bytes × Bool)},
      List.Forall₂ (fun c q => renderNode c ctx = .ok q) cs qs →
        ∃ qs', List.Forall₂ (fun c q => renderNode c ctx' = .ok q) cs qs' ∧
          List.Forall₂ (SamePiece (despace · = despace ·)) qs qs'
  | [], _, .nil => ⟨[], .nil, .nil⟩
  | c :: _, q :: _, .cons hq h => by
      obtain ⟨qs', hqs', hsame⟩ := rerendered ctx' h
      have hc := coupled_despace c.depth c ctx ctx' le_rfl trivial
      rw [hq] at hc
      generalize hr : renderNode c ctx' = r at hc
      cases hc with
      | ok hqq => exact ⟨_ :: qs', .cons hr hqs', .cons hqq hsame⟩

theorem kept_of_samePiece {q q' : Bytes × Bool} (h : SamePiece (despace · = despace ·) q q') :
    kept q = kept q' := by
  rw [kept, kept, h.2.2, decide_eq_decide.mpr (not_congr h.2.1)]

theorem block_of_item {c : Val} (hc : R.isItem c = true) {ctx : Ctx} {q : Bytes × Bool}
    (h : renderNode c ctx = .ok q) : q.2 = true := by
  rw [(renderNode_shape c.depth c ctx le_rfl q h).block]
  cases c with
  | item term cs => rfl
  | _ => exact absurd hc Bool.false_ne_true

theorem empty_of_item {c : Val} (hc : R.isItem c = true) : c.isEmpty = false := by
  cases c with
  | item term cs => rfl
  | _ => exact absurd hc Bool.false_ne_true

theorem kept_of_block {q : Bytes × Bool} (h : q.2 = true) : kept q = true := by
  rw [kept, h, Bool.true_or]

theorem marks_eq_nil {cs : List Val} {ps : List (Bytes × Bool)} (h : ps.map pieceMark = marks cs) :
    ps = [] ↔ marks cs = [] := by
  rw [← h, List.map_eq_nil_iff]

/-- The pieces of a list, indented as items, and those of its fragment, which are not. -/
theorem envText_hidden_iff {c : Val} (hitem : R.isItem c = true) {ctx : Ctx}
    {ks as ps bs : List (Bytes × Bool)} {q q' : Bytes × Bool}
    (hq : renderNode c (deeper ctx 1) = .ok q) (hq' : renderNode c ctx = .ok q') (hqk : q ∈ ks)
    (hqk' : q' ∈ as ++ (ps ++ bs)) (hps : ps ≠ [])
    (hsame : List.Forall₂ (SamePiece (despace · = despace ·)) ks (as ++ (ps ++ bs)))
    (name : Bytes) (opts : Opts) (a : Bytes) :
    envText (pad ctx) name opts a (joinWith (·.1) (unlessGlued bothInline (sepOf false)) ks)
        = envText [] name opts a
            (joinWith (·.1) (unlessGlued bothInline parSep) (as ++ (fragPieces ps ++ bs))) ↔
      ctx.indent = false ∧ as = [] ∧ bs = [] ∧ ps.length = 1 := by
  -- where the item is all there is
  have halone : as = [] → bs = [] → ps.length = 1 → ks = [q] ∧ ps = [q'] := by
    rintro rfl rfl hlen
    obtain ⟨x, rfl⟩ := List.length_eq_one_iff.mp hlen
    obtain ⟨y, rfl⟩ := List.length_eq_one_iff.mp hsame.length_eq
    rw [List.mem_singleton.mp hqk, List.mem_singleton.mp hqk']
    exact ⟨rfl, rfl⟩
  constructor
  · intro htext
    have hbodies := despace_body_of_envText
      (List.ne_nil_of_mem (mem_joinWith (bsl_mem_of_item hitem hq) hqk))
      (List.ne_nil_of_mem (mem_of_fragPieces (bsl_mem_of_item hitem hq') hqk')) htext
    have hrerendered := despace_joinWith_congr (sepOf false) (by decide) hsame
    obtain ⟨has, hbs, hlen⟩ := one_piece hps
      (List.any_eq_true.mpr ⟨q', hqk', block_of_item hitem hq'⟩)
      (congrArg List.length (hrerendered.symm.trans hbodies))
    refine ⟨?_, has, hbs, hlen⟩
    -- indented, the item stands deeper in the list
    obtain ⟨s, hs⟩ := item_text hitem hq
    obtain ⟨t, ht⟩ := item_text hitem hq'
    obtain ⟨hone, hone'⟩ := halone has hbs hlen
    cases hindent : ctx.indent with
    | false => rfl
    | true =>
        have hdiffer := envText_indented_ne hindent name opts a s t
        rw [← hs, ← ht] at hdiffer
        rw [hone, hone', has, hbs] at htext
        exact absurd (by simpa [joinWith, joinAfter, fragPieces, fragPiece] using htext) hdiffer
  · rintro ⟨hindent, rfl, rfl, hlen⟩
    obtain ⟨rfl, rfl⟩ := halone rfl rfl hlen
    have hdeep : (deeper ctx 1).indent = false := hindent
    rw [renderNode_flat hdeep hindent c] at hq
    rw [Except.ok.inj (hq.symm.trans hq'), pad, if_neg (by rw [hindent]; exact Bool.false_ne_true)]
    simp [joinWith, joinAfter, fragPieces, fragPiece]

/-- An environment whose items are all in the fragment is laid out as a list only with the
list in its place. -/
theorem env_iff_of_hidden {name : Bytes} {opts : Opts} {args : List Val}
    (hin : hasItems xs = true) (hout : (hasItems pre || hasItems post) = false)
    (h : renderNode (.env name opts args (pre ++ .list .nil xs :: post)) ctx = .ok p) :
    renderNode (.env name opts args (pre ++ .frag xs :: post)) ctx = .ok p ↔
      ctx.indent = false ∧ marks pre = [] ∧ marks post = [] ∧ (marks xs).length = 1 := by
  rw [renderNode_eq] at h ⊢
  have hfull : Val.fullList (pre ++ .list .nil xs :: post) = true := full_of_env h
  change R.env renderNode name opts args _ ctx = _ at h
  change R.env renderNode name opts args _ ctx = _ ↔ _
  rw [env_eq hfull, hasItems_list, hin, Bool.true_or] at h
  rw [env_eq (full_frag hfull), hasItems_frag, hout]
  obtain ⟨a, ha, h⟩ := bind_eq_ok_iff.mp h
  obtain ⟨r, hr, hp⟩ := bind_eq_ok_iff.mp h
  obtain ⟨-, qs, hqs, rfl⟩ := (renderChildren_eq_ok_iff renderNode).mp hr
  obtain ⟨qs', hqs', hsame⟩ := rerendered ctx hqs
  obtain ⟨as, ps, bs, has, hps, hbs, hkept, hfrag⟩ := frag_pieces hfull hqs'
  have hsame := List.rel_filter (fun _ _ hq => Iff.of_eq (congrArg (· = true) (kept_of_samePiece hq)))
    hsame
  -- the item, rendered with the list and with the fragment
  obtain ⟨c, hc, hitem⟩ := List.any_eq_true.mp hin
  have hmem : c ∈ Val.leavesList (pre ++ .list .nil xs :: post) := by
    rw [Val.leavesList_append]
    exact List.mem_append_right _ (List.mem_append_left _ hc)
  obtain ⟨q, hq, hcq⟩ := exists_mem_of_forall₂ hqs hmem
  obtain ⟨q', hq', hcq'⟩ := exists_mem_of_forall₂ hqs' hmem
  have hqk := List.mem_filter.mpr ⟨hq, kept_of_block (block_of_item hitem hcq)⟩
  have hqk' := List.mem_filter.mpr ⟨hq', kept_of_block (block_of_item hitem hcq')⟩
  have hne : ps ≠ [] := by
    rintro rfl
    have hmark := List.map_eq_nil_iff.mp hps.symm
    rw [List.filter_eq_nil_iff] at hmark
    exact hmark c hc (by rw [empty_of_item hitem]; rfl)
  rw [hkept] at hqk' hsame
  rw [← marks_eq_nil has, ← marks_eq_nil hbs, ← hps, List.length_map,
    ← envText_hidden_iff hitem hcq hcq' hqk hqk' hne hsame name opts a, ha, ← Except.ok.inj hp,
    glued_eq_joinWith, show sepOf (!false) = parSep from rfl, show envCtx false ctx = ctx from rfl,
    hfrag name parSep]
  exact ok_eq_ok_iff

/-! ## Every parent -/

/-- **Where a fragment is transparent.**  In place of a list it is rendered to the same
string exactly where `Parent.transparent` says so. -/
theorem frag_transparent_iff (P : Parent) (pre xs post : List Val) (ctx : Ctx) {p : Bytes × Bool}
    (h : renderNode (P.node (pre ++ .list .nil xs :: post)) ctx = .ok p) :
    renderNode (P.node (pre ++ .frag xs :: post)) ctx = .ok p ↔
      P.transparent ctx.indent pre xs post = true := by
  cases P with
  | frag => exact frag_iff h
  | par => exact par_iff h
  | sec cmd star short label title => exact sec_iff h
  | item term => exact item_iff h
  | document d => exact document_iff h
  | env name opts args =>
      rw [Parent.transparent]
      cases hin : hasItems xs && !(hasItems pre || hasItems post) with
      | true =>
          rw [Bool.and_eq_true, Bool.not_eq_true'] at hin
          refine (env_iff_of_hidden hin.1 hin.2 h).trans ?_
          simp
      | false =>
          refine (env_iff_of_same ?_ h).trans ?_
          · rw [hasItems_list, hasItems_frag]
            cases houter : hasItems pre || hasItems post with
            | true => rw [Bool.or_true]
            | false =>
                rw [houter, Bool.not_false, Bool.and_true] at hin
                rw [hin, Bool.or_false]
          · rw [hasItems_frag]
            simp

/-- Between two texts inline pieces change nothing, with or without a fragment. -/
theorem frag_transparent_inline :
    renderNode (.par [.str (ascii "a"), .frag [.str (ascii "b"), .str (ascii "c")]]) ⟨true, 0⟩
      = .ok (ascii "abc", true) :=
  (frag_transparent_iff .par [.str (ascii "a")] [.str (ascii "b"), .str (ascii "c")] [] ⟨true, 0⟩
    (p := (ascii "abc", true)) (by decide)).mpr (by decide)

/-- An inline piece ahead of a block is set off from what stands before the fragment. -/
theorem frag_not_transparent :
    render (.par [.str (ascii "a"), .list .nil [.str (ascii "b"), .par [.str (ascii "c")]]]) true
        = .ok (ascii "ab\n\nc") ∧
      render (.par [.str (ascii "a"), .frag [.str (ascii "b"), .par [.str (ascii "c")]]]) true
        = .ok (ascii "a\n\nb\n\nc") := by
  decide

end Tmg.Latex
