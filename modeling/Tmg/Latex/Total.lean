/-
# `Tmg.Latex.Total` — the fuel of `renderOne` never runs out

`renderOne` counts down on every node it enters, and `L.render` starts it with the depth
of the value.  No more is ever needed:

    x.depth ≤ n  →  n ≤ m  →  renderOne n x ctx = renderOne m x ctx,
                              and it is not the error `depth`     (`renderOne_agree`)

This is the relation of `Tmg.Latex.TwoRuns` with equality on both sides.  What follows it
can forget the fuel: `renderNode` is `render_one`, and satisfies its equation.

    renderNode x ctx = renderStep renderNode x ctx                 (`renderNode_eq`)
-/
import Tmg.Latex.TwoRuns

namespace Tmg.Latex

open Tmg Lib

/-! ## A turn of `render_one` -/

/-- `render_one`, with `one` for the children. -/
def renderStep (one : Val → Ctx → Except LatexError (Bytes × Bool)) (c : Val) (ctx : Ctx) :
    Except LatexError (Bytes × Bool) :=
  match c with
  | .str s => .ok (escape s, false)
  | .num n => .ok (n.text, false)
  | .nil => .error (.cannotRender (ascii "nil"))
  | .bool _ => .error (.cannotRender (ascii "boolean"))
  | .list _ _ => .error (.cannotRender (ascii "table"))
  | .other tc => .error (.cannotRender tc)
  | .raw s block => .ok (R.raw s block)
  | .frag cs => R.frag one cs ctx
  | .par cs => R.par one cs ctx
  | .cmd name opts args => R.cmd one name opts args ctx
  | .env name opts args cs => R.env one name opts args cs ctx
  | .item term cs => R.item one term cs ctx
  | .m s => .ok (R.m s)
  | .newcommand name definition nargs => .ok (R.newcommand name definition nargs)
  | .sec cmd star short label title cs => R.sec one cmd star short label title cs ctx
  | .listenv env opts items => R.list one env opts items ctx
  | .mathenv env star label lines => .ok (R.mathenv env star label lines ctx)
  | .verbatim s => .ok (R.verbatim s)
  | .lstlisting code opts => .ok (R.lstlisting code opts)
  | .rule cmd => .ok (R.rule cmd)
  | .tabular t => R.tabular one t ctx
  | .table t fl => R.table one t fl ctx
  | .figure fig fl => R.figure one fig fl ctx
  | .document d cs => R.document one d cs ctx

theorem renderOne_succ (n : Nat) (x : Val) (ctx : Ctx) :
    renderOne (n + 1) x ctx = renderStep (renderOne n) x ctx := by
  cases x <;> rfl

variable {S : Bytes → Bytes → Prop} {C : Ctx → Ctx → Prop}

/-- Two runs that agree on the children agree on the node. -/
theorem coupled_step (hS : Layout S C)
    {one one' : Val → Ctx → Except LatexError (Bytes × Bool)} {n : Nat}
    (hone : ∀ c ctx ctx', Val.depth c ≤ n → C ctx ctx' →
      Coupled .depth (SamePiece S) (one c ctx) (one' c ctx'))
    {x : Val} {ctx ctx' : Ctx} (h : x.depth ≤ n + 1) (hctx : C ctx ctx') :
    Coupled .depth (SamePiece S) (renderStep one x ctx) (renderStep one' x ctx') := by
  have hlist : ∀ cs : List Val, Val.depthList cs + 1 ≤ n + 1 → ∀ c ∈ cs, c.depth ≤ n :=
    fun cs hcs => (Val.depthList_le cs).mp (by omega)
  cases x with
  | str s => exact .ok (hS.samePiece _ _)
  | num k => exact .ok (hS.samePiece _ _)
  | nil => exact .error nofun
  | bool b => exact .error nofun
  | list t items => exact .error nofun
  | other tc => exact .error nofun
  | raw s block => exact .ok (hS.samePiece _ _)
  | m s => exact .ok (hS.samePiece _ _)
  | newcommand name definition nargs => exact .ok (hS.samePiece _ _)
  | mathenv env star label lines => exact .ok (R.same_mathenv hS hctx env star label lines)
  | verbatim s => exact .ok (hS.samePiece _ _)
  | lstlisting code opts => exact .ok (hS.samePiece _ _)
  | rule cmd => exact .ok (hS.samePiece _ _)
  | frag cs => exact coupled_renderChildren hS hone hctx (hlist cs h) _ _
  | par cs => exact R.coupled_par hS hone hctx (hlist cs h)
  | cmd name opts args => exact R.coupled_cmd hS hone hctx (hlist args h) name opts
  | env name opts args cs =>
      rw [Val.depth] at h
      exact R.coupled_env hS hone hctx (hlist args (by omega)) (hlist cs (by omega)) name opts
  | item term cs =>
      rw [Val.depth] at h
      exact R.coupled_item hS hone hctx (by omega) (hlist cs (by omega))
  | sec cmd star short label title cs =>
      rw [Val.depth] at h
      exact R.coupled_sec hS hone hctx (hlist title (by omega)) (hlist cs (by omega)) cmd star
        short label
  | listenv env opts items => exact R.coupled_list hS hone hctx (hlist items h) env opts
  | tabular t =>
      rw [Val.depth] at h
      exact R.coupled_tabular hS hone hctx (by omega) (hlist t.rows (by omega))
  | table t fl =>
      rw [Val.depth] at h
      exact R.coupled_table hS hone hctx (by omega) (hlist t.rows (by omega)) (by omega)
  | figure fig fl =>
      rw [Val.depth] at h
      exact R.coupled_figure hS hone hctx fig (by omega)
  | document d cs =>
      rw [Val.depth] at h
      exact R.coupled_document hS hone hctx (hlist d.preamble (by omega)) (by omega) (by omega)
        (by omega) (hlist cs (by omega))

/-! ## The fuel -/

/-- Equality on both sides. -/
theorem layout_eq : Layout (· = ·) (· = ·) where
  refl _ := rfl
  append := by rintro a _ c _ rfl rfl; rfl
  strip := by rintro a _ rfl; exact ⟨rfl, Iff.rfl⟩
  pad := by rintro c _ rfl; rfl
  deeper := by rintro c _ k rfl; rfl

theorem Val.one_le_depth (x : Val) : 1 ≤ x.depth := by
  cases x <;> simp [depth]

/-- **The depth of a value is fuel enough**: more changes nothing, and it never runs out. -/
theorem renderOne_agree (n m : Nat) (x : Val) (ctx : Ctx) (h : x.depth ≤ n) (hnm : n ≤ m) :
    Coupled .depth (· = ·) (renderOne n x ctx) (renderOne m x ctx) := by
  have hx := x.one_le_depth
  induction n generalizing m x ctx with
  | zero => omega
  | succ n ih =>
      obtain ⟨m, rfl⟩ : ∃ k, m = k + 1 := ⟨m - 1, by omega⟩
      rw [renderOne_succ, renderOne_succ]
      refine (coupled_step layout_eq (fun c d d' hc hd => ?_) h rfl).imp ?_
      · subst hd
        refine (ih m c d hc (by omega) c.one_le_depth).imp ?_
        rintro p _ rfl
        exact layout_eq.samePiece _ _
      · rintro ⟨s, blk⟩ ⟨t, _⟩ ⟨hst, -, rfl⟩
        exact congrArg (·, blk) hst

/-! ## `render_one` -/

/-- `render_one` -/
def renderNode (x : Val) (ctx : Ctx) : Except LatexError (Bytes × Bool) :=
  renderOne x.depth x ctx

theorem renderOne_eq_node {n : Nat} {x : Val} (h : x.depth ≤ n) (ctx : Ctx) :
    renderOne n x ctx = renderNode x ctx :=
  (renderOne_agree x.depth n x ctx le_rfl h).eq.symm

/-- Enough fuel for the children, beside `renderNode`. -/
theorem coupled_renderNode {n : Nat} (c : Val) (ctx ctx' : Ctx) (hc : c.depth ≤ n)
    (hctx : ctx = ctx') :
    Coupled .depth (SamePiece (· = ·)) (renderOne n c ctx) (renderNode c ctx') := by
  subst hctx
  rw [← renderOne_eq_node hc]
  refine (renderOne_agree n n c ctx hc le_rfl).imp ?_
  rintro p _ rfl
  exact layout_eq.samePiece _ _

theorem SamePiece.eq {p q : Bytes × Bool} (h : SamePiece (· = ·) p q) : p = q :=
  Prod.ext h.1 h.2.2

/-- The renderers call `render_one` on the children. -/
theorem renderNode_eq (x : Val) (ctx : Ctx) : renderNode x ctx = renderStep renderNode x ctx := by
  obtain ⟨n, hn⟩ : ∃ n, x.depth = n + 1 := ⟨x.depth - 1, by have := x.one_le_depth; omega⟩
  rw [renderNode, hn, renderOne_succ]
  exact ((coupled_step layout_eq coupled_renderNode (by omega) rfl).imp fun _ _ => SamePiece.eq).eq

theorem coupled_render (x : Val) (indent : Bool) :
    Coupled .depth (· = ·) (render x indent)
      (inlineVal renderNode x ⟨indent, 0⟩ (ascii "render")) :=
  coupled_inlineVal layout_eq coupled_renderNode (n := x.depth) rfl le_rfl _

/-- `L.render` renders one child. -/
theorem render_eq (x : Val) (indent : Bool) :
    render x indent = inlineVal renderNode x ⟨indent, 0⟩ (ascii "render") :=
  (coupled_render x indent).eq

/-- `L.render` never runs out of fuel. -/
theorem render_ne_depth (x : Val) (indent : Bool) : render x indent ≠ .error .depth :=
  (coupled_render x indent).ne

end Tmg.Latex
