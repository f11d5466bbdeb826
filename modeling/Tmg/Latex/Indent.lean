/-
# `Tmg.Latex.Indent` — `indent` changes nothing but spaces

Two strings are equal up to spaces if they are equal once every byte 32 is deleted
(`despace`).  The renderers respect that relation in any two contexts whatever: `pad` is
nothing but spaces, and no test looks at what it wrote.

| test in the source | on a string that may be indented |
| :-- | :-- |
| `blk or s ~= ""` | a block, or an inline piece, which starts with no indentation |
| `body ~= ""` in `R.env`, `R.sec`, `R.document` | what `render_children` returned |
| `body ~= ""` in `R.item`, `R.list` | the body behind its leading blanks |

The last is a question about the string without its spaces: `gsub("^%s+", "")` removes a
head of blanks, of which spaces are some (`despace_stripLeft`).
-/
import Tmg.Latex.Total

namespace Tmg.Latex

open Tmg Lib

/-- `s` without its spaces. -/
def despace (s : Bytes) : Bytes := s.filter (· ≠ 32)

theorem despace_append (a b : Bytes) : despace (a ++ b) = despace a ++ despace b :=
  List.filter_append ..

theorem despace_cons_of_ne {c : Byte} (h : c ≠ 32) (s : Bytes) :
    despace (c :: s) = c :: despace s := by
  simp [despace, h]

/-- Deleting spaces and removing the blanks at the head can be done in either order. -/
theorem despace_stripLeft : ∀ s : Bytes, despace (stripLeft s) = stripLeft (despace s)
  | [] => rfl
  | c :: s => by
      have ih := despace_stripLeft s
      by_cases hc : isSpace c = true
      · have hstrip : stripLeft (c :: s) = stripLeft s := List.dropWhile_cons_of_pos hc
        rw [hstrip, ih]
        by_cases h32 : c = 32
        · subst h32
          rfl
        · rw [despace_cons_of_ne h32]
          exact (List.dropWhile_cons_of_pos hc).symm
      · have h32 : c ≠ 32 := by
          rintro rfl
          exact hc (by decide)
        have hstrip : stripLeft (c :: s) = c :: s := List.dropWhile_cons_of_neg hc
        rw [hstrip, despace_cons_of_ne h32]
        exact (List.dropWhile_cons_of_neg hc).symm

/-- What is left behind the blanks begins with no space. -/
theorem despace_stripLeft_eq_nil (s : Bytes) : despace (stripLeft s) = [] ↔ stripLeft s = [] := by
  refine ⟨fun h => ?_, fun h => by rw [h]; rfl⟩
  cases hs : stripLeft s with
  | nil => rfl
  | cons c t =>
      have hc : isSpace c = false := by
        have hnot := List.head?_dropWhile_not isSpace s
        rw [stripLeft] at hs
        rw [hs] at hnot
        exact hnot
      have h32 : c ≠ 32 := by
        rintro rfl
        exact absurd hc (by decide)
      rw [hs, despace_cons_of_ne h32] at h
      exact absurd h (List.cons_ne_nil _ _)

theorem despace_pad (ctx : Ctx) : despace (pad ctx) = [] := by
  unfold pad
  split
  · exact List.filter_eq_nil_iff.mpr fun c hc => by simp [List.eq_of_mem_replicate hc]
  · rfl

/-- Equality up to spaces, in any two contexts. -/
theorem layout_despace : Layout (despace · = despace ·) fun _ _ => True where
  refl _ := rfl
  append hab hcd := by rw [despace_append, despace_append, hab, hcd]
  strip := by
    intro a b hab
    have hstrip : despace (stripLeft a) = despace (stripLeft b) := by
      rw [despace_stripLeft, despace_stripLeft, hab]
    exact ⟨hstrip, by rw [← despace_stripLeft_eq_nil, ← despace_stripLeft_eq_nil, hstrip]⟩
  pad _ := by rw [despace_pad, despace_pad]
  deeper _ _ := trivial

/-- A value is rendered alike in any two contexts, up to spaces. -/
theorem coupled_despace :
    ∀ (n : Nat) (c : Val) (ctx ctx' : Ctx), c.depth ≤ n → True →
      Coupled .depth (SamePiece (despace · = despace ·)) (renderNode c ctx) (renderNode c ctx')
  | 0, c, _, _, h, _ => absurd c.one_le_depth (by omega)
  | n + 1, c, ctx, ctx', h, _ => by
      rw [renderNode_eq c ctx, renderNode_eq c ctx']
      exact coupled_step layout_despace (coupled_despace n) h trivial

/-- Without `indent`, how deep a value stands makes no difference. -/
theorem layout_flat : Layout (· = ·) fun c d => c.indent = false ∧ d.indent = false where
  refl _ := rfl
  append := by rintro a _ c _ rfl rfl; rfl
  strip := by rintro a _ rfl; exact ⟨rfl, Iff.rfl⟩
  pad := by
    rintro c d ⟨hc, hd⟩
    rw [pad, pad, hc, hd]
    rfl
  deeper _ h := h

theorem renderNode_flat {c d : Ctx} (hc : c.indent = false) (hd : d.indent = false) (x : Val) :
    renderNode x c = renderNode x d := by
  have hone : ∀ (n : Nat) (x : Val) (c d : Ctx), x.depth ≤ n → c.indent = false ∧ d.indent = false →
      Coupled .depth (SamePiece (· = ·)) (renderNode x c) (renderNode x d) := by
    intro n
    induction n with
    | zero => exact fun x _ _ h => absurd x.one_le_depth (by omega)
    | succ n ih =>
        intro x c d h hcd
        rw [renderNode_eq x c, renderNode_eq x d]
        exact coupled_step layout_flat ih h hcd
  exact ((hone x.depth x c d le_rfl ⟨hc, hd⟩).imp fun _ _ => SamePiece.eq).eq

/-- **`indent` changes nothing but spaces**: with it and without it a value renders to the
same string once the spaces are deleted, or fails with the same error. -/
theorem render_indent (x : Val) : (render x true).map despace = (render x false).map despace := by
  rw [render_eq, render_eq]
  exact (coupled_inlineVal layout_despace (coupled_despace x.depth) trivial le_rfl _).map_eq
    fun _ _ hst => hst

/-- The spaces do differ: a list is indented. -/
example : render (.listenv (ascii "itemize") .none [.str (ascii "a")]) true
    ≠ render (.listenv (ascii "itemize") .none [.str (ascii "a")]) false := by decide

end Tmg.Latex
