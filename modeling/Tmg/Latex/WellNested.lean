/-
# `Tmg.Latex.WellNested` — what is rendered is well nested

A tree is fit (`Val.Fit`) when its names are names, its raw fields are balanced by
themselves, and an inline raw stands alone in an argument of a command.  Whatever the
text in it is, what such a tree renders to is well nested (`render_wellNested`).

Raw fields may end in a control word, and a control word swallows the letters behind it.
So a renderer returns one of two grades (`Neat`):

| | |
| :-- | :-- |
| a block | a piece: it must not be followed by a letter |
| not a block | closed: anything may follow it |

`render_children` separates a block from its neighbours and glues the rest together, which
is just what the grades ask for, and every other function puts a bracket, a line break or a
space behind a piece.
-/
import Tmg.Latex.Total
import Tmg.Latex.Pieces

namespace Tmg.Latex

open Tmg Lib

/-! ## Fit trees -/

def Pos.RawOk : Pos → Prop
  | .default => True
  | .off => True
  | .str s => Latex.RawOk s

def Width.RawOk : Width → Prop
  | .num _ => True
  | .str s => Latex.RawOk s

def Pkg.RawOk : Pkg → Prop
  | .name s => Latex.RawOk s
  | .withOpts s opts => Latex.RawOk s ∧ ∀ o ∈ opts, Latex.RawOk o

def Bib.RawOk (b : Bib) : Prop := (∀ s ∈ b.style, Latex.RawOk s) ∧ ∀ s ∈ b.file, Latex.RawOk s

namespace Val

/-- A string that stands for LaTeX. -/
def StrOk : Val → Prop
  | str s => RawOk s
  | _ => True

mutual

/-- One raw and nothing else, through lists and fragments of one child. -/
def SoleRaw : Val → Prop
  | raw s _ => RawOk s
  | list _ items => SoleRaws items
  | frag cs => SoleRaws cs
  | _ => False

def SoleRaws : List Val → Prop
  | [c] => SoleRaw c
  | _ => False

end

mutual

/-- The trees whose rendering is well nested. -/
def Fit : Val → Prop
  | nil | bool _ | num _ | str _ | other _ => True
  | list term items => Fit term ∧ FitAll items
  | raw s block => block = true ∧ RawOk s
  | frag cs => FitAll cs
  | par cs => FitAll cs
  | cmd name opts args => IsCmdName name ∧ opts.RawOk ∧ args ≠ [] ∧ FitArgs args
  | env name opts args cs =>
      IsName name ∧ opts.RawOk ∧ (FitAll args ∧ ∀ a ∈ args, StrOk a) ∧ FitAll cs
  | item term cs => Fit term ∧ FitAll cs
  | m s => RawOk s
  | newcommand name definition nargs =>
      IsCmdName name ∧ RawOk definition ∧ ∀ s ∈ nargs, RawOk s
  | sec command _ _ label title cs =>
      IsCmdName command ∧ (∀ l ∈ label, RawOk l) ∧ FitAll title ∧ FitAll cs
  | listenv kind opts items => IsName kind ∧ opts.RawOk ∧ FitAll items
  | mathenv kind _ label lines =>
      IsName kind ∧ (∀ l ∈ label, RawOk l) ∧ ∀ l ∈ lines, RawOk l
  | verbatim _ => False
  | lstlisting _ _ => False
  | rule command => RawOk command
  | tabular ⟨cols, header, rows, _, _⟩ => (∀ c ∈ cols, RawOk c) ∧ Fit header ∧ FitAll rows
  | table ⟨cols, header, rows, _, _⟩ ⟨pos, _, caption, label, _⟩ =>
      ((∀ c ∈ cols, RawOk c) ∧ Fit header ∧ FitAll rows) ∧
        pos.RawOk ∧ Fit caption ∧ ∀ l ∈ label, RawOk l
  | figure ⟨width, opts, file⟩ ⟨pos, _, caption, label, _⟩ =>
      ((∀ w ∈ width, w.RawOk) ∧ (∀ s ∈ opts, RawOk s) ∧ RawOk file) ∧
        pos.RawOk ∧ Fit caption ∧ ∀ l ∈ label, RawOk l
  | document ⟨opts, cls, packages, preamble, title, author, date, _, _, bib⟩ cs =>
      (opts.RawOk ∧ (∀ s ∈ cls, RawOk s) ∧ (∀ p ∈ packages, p.RawOk) ∧ ∀ b ∈ bib, b.RawOk) ∧
        (FitAll preamble ∧ ∀ c ∈ preamble, StrOk c) ∧
        (Fit title ∧ Fit author ∧ Fit date) ∧ FitAll cs

def FitAll : List Val → Prop
  | [] => True
  | c :: cs => Fit c ∧ FitAll cs

/-- The arguments of a command: none is nil, and a raw may stand alone in one. -/
def FitArgs : List Val → Prop
  | [] => True
  | a :: args => a.isNil = false ∧ (SoleRaw a ∨ Fit a) ∧ FitArgs args

end

theorem fitAll_iff (cs : List Val) : FitAll cs ↔ ∀ c ∈ cs, Fit c := by
  induction cs with
  | nil => simp [FitAll]
  | cons c cs ih => simp [FitAll, ih]

theorem SoleRaws.eq {cs : List Val} (h : SoleRaws cs) : ∃ c, cs = [c] ∧ SoleRaw c := by
  match cs, h with
  | [c], h => exact ⟨c, rfl, h⟩

theorem hereditary_fit : Hereditary Fit where
  list t items h := by
    rw [Fit, fitAll_iff] at h
    exact h
  item t cs h := by
    rw [Fit, fitAll_iff] at h
    exact h

end Val

/-- What `tabular_lines` reads is fit. -/
def TabCfg.Fit (t : TabCfg Val) : Prop :=
  (∀ c ∈ t.cols, RawOk c) ∧ t.header.Fit ∧ Val.FitAll t.rows

/-- What `float_lines` reads is fit. -/
def FloatCfg.Fit (fl : FloatCfg Val) : Prop :=
  fl.pos.RawOk ∧ fl.caption.Fit ∧ ∀ l ∈ fl.label, RawOk l

/-- What `R.figure` reads besides is fit. -/
def FigCfg.Fit (fig : FigCfg) : Prop :=
  (∀ w ∈ fig.width, w.RawOk) ∧ (∀ s ∈ fig.opts, RawOk s) ∧ RawOk fig.file

/-- What `R.document` reads besides its children is fit. -/
structure DocCfg.Fit (d : DocCfg Val) : Prop where
  opts : d.opts.RawOk
  cls : ∀ s ∈ d.cls, RawOk s
  packages : ∀ p ∈ d.packages, p.RawOk
  bib : ∀ b ∈ d.bib, b.RawOk
  preamble : ∀ c ∈ d.preamble, c.Fit
  lines : ∀ c ∈ d.preamble, c.StrOk
  title : d.title.Fit
  author : d.author.Fit
  date : d.date.Fit

/-! ## Children -/

/-- What a renderer returns: a piece, and closed unless it is a block. -/
def Neat (r : Bytes × Bool) : Prop := latex.Piece r.1 ∧ (r.2 = false → latex.Closed r.1)

/-- A block. -/
theorem neat_block {s : Bytes} (h : latex.Piece s) : Neat (s, true) := ⟨h, nofun⟩

theorem neat_closed {s : Bytes} (h : latex.Closed s) (blk : Bool) : Neat (s, blk) :=
  ⟨h.piece, fun _ => h⟩

/-- The glue holds a piece, closed unless a block came last, and no block unless it says so. -/
structure GlueOk (g : Glue) : Prop where
  piece : latex.Piece g.out.flatten
  closed : g.prevBlock = false → latex.Closed g.out.flatten
  block : g.anyBlock = false → g.prevBlock = false

theorem GlueOk.push {g : Glue} (hg : GlueOk g) {bsep : Bytes} (hsep : latex.Fence bsep) {s : Bytes}
    {blk : Bool} (hs : Neat (s, blk)) : GlueOk (g.push bsep s blk) := by
  -- before a piece the glue is closed, either by itself or by the separator
  have hadd : ∀ out : List Bytes, latex.Closed out.flatten →
      GlueOk { out := out ++ [s], prevBlock := blk, anyBlock := g.anyBlock || blk } := by
    intro out hout
    refine ⟨?_, ?_, ?_⟩
    · simpa using hout.append_piece hs.1
    · intro hblk
      simpa using hout.append (hs.2 hblk)
    · intro hany
      exact (Bool.or_eq_false_iff.mp hany).2
  unfold Glue.push
  split
  · split
    · refine hadd _ ?_
      simpa using hg.piece.append_fence hsep
    · next hsplit =>
        refine hadd _ ?_
        by_cases hout : g.out = []
        · rw [hout]
          exact Markup.closed_nil
        · have hlen : g.out.length > 0 := List.length_pos_iff.mpr hout
          refine hg.closed ?_
          simpa using fun h => hsplit ⟨hlen, Or.inr h⟩
  · exact hg

/-- What the renderers ask of their parameter. -/
structure NeatOne (one : Val → Ctx → Except LatexError (Bytes × Bool)) : Prop where
  fit : ∀ c ctx, Val.Fit c → Returns Neat (one c ctx)
  sole : ∀ c ctx, Val.SoleRaw c → Returns (latex.Piece ·.1) (one c ctx)

section

variable {one : Val → Ctx → Except LatexError (Bytes × Bool)} (hone : NeatOne one)
include hone

theorem renderItems_neat (ctx : Ctx) {bsep : Bytes} (hsep : latex.Fence bsep) :
    ∀ (cs : List Val) (g : Glue), (∀ c ∈ cs, c.Fit) → GlueOk g →
      Returns GlueOk (renderItems one ctx bsep cs g)
  | [], g, _, hg => returns_ok hg
  | c :: cs, g, h, hg => by
      rw [List.forall_mem_cons] at h
      refine (hone.fit c ctx h.1).bind ?_
      rintro ⟨s, blk⟩ hs
      exact renderItems_neat ctx hsep cs _ h.2 (hg.push hsep hs)

theorem renderChildren_neat {cs : List Val} (h : ∀ c ∈ cs, c.Fit) (ctx : Ctx) (who : Bytes)
    {bsep : Bytes} (hsep : latex.Fence bsep) : Returns Neat (renderChildren one cs ctx who bsep) := by
  refine (returns_flattenFrom Val.hereditary_fit who cs 1 h).bind fun items hitems => ?_
  have hg : GlueOk { out := [], prevBlock := false, anyBlock := false } :=
    ⟨Markup.closed_nil.piece, fun _ => Markup.closed_nil, fun _ => rfl⟩
  refine (renderItems_neat hone ctx hsep items _ hitems hg).bind fun g hg => returns_ok ?_
  rw [tableConcat_nil]
  exact ⟨hg.piece, fun hany => hg.closed (hg.block hany)⟩

theorem inlineVal_piece {c : Val} (h : c.Fit) (ctx : Ctx) (who : Bytes) :
    Returns latex.Piece (inlineVal one c ctx who) := by
  have hc : ∀ d ∈ [c], d.Fit := List.forall_mem_singleton.mpr h
  refine (renderChildren_neat hone hc ctx who fence_parSep).bind ?_
  rintro ⟨s, blk⟩ hs
  exact returns_ok hs.1

/-! ## Arguments -/

omit hone in
/-- `flatten` finds one raw, or a fragment with one in it. -/
theorem returns_flattenFrom_sole (who : Bytes) :
    ∀ (c : Val) (i : Nat), c.SoleRaw →
      Returns (fun items => ∃ d : Val, items = [d] ∧ d.SoleRaw) (flattenFrom who i [c])
  | .raw s block, i, h => by
      have hrun : flattenFrom who i [.raw s block] = .ok [.raw s block] := rfl
      rw [hrun]
      exact returns_ok ⟨_, rfl, h⟩
  | .frag cs, i, h => by
      have hrun : flattenFrom who i [.frag cs] = .ok [.frag cs] := rfl
      rw [hrun]
      exact returns_ok ⟨_, rfl, h⟩
  | .list t [c], i, h => by
      refine Returns.bind (returns_flattenFrom_sole who c 1 h) ?_
      rintro _ ⟨d, rfl, hd⟩
      exact returns_ok (a := [d]) ⟨d, rfl, hd⟩

theorem renderChildren_sole {c : Val} (h : c.SoleRaw) (ctx : Ctx) (who bsep : Bytes) :
    Returns (latex.Piece ·.1) (renderChildren one [c] ctx who bsep) := by
  refine (returns_flattenFrom_sole who c 1 h).bind ?_
  rintro _ ⟨d, rfl, hd⟩
  refine Returns.bind (Q := fun g => latex.Piece g.out.flatten) ?_ fun g hg => returns_ok ?_
  · refine (hone.sole d ctx hd).bind ?_
    rintro ⟨s, blk⟩ hs
    refine returns_ok ?_
    unfold Glue.push
    split
    · simpa using hs
    · exact Markup.closed_nil.piece
  · rw [tableConcat_nil]
    exact hg

theorem inlineVal_arg {a : Val} (h : a.SoleRaw ∨ a.Fit) (ctx : Ctx) (who : Bytes) :
    Returns latex.Piece (inlineVal one a ctx who) := by
  rcases h with h | h
  · refine (renderChildren_sole hone h ctx who parSep).bind ?_
    rintro ⟨s, blk⟩ hs
    exact returns_ok hs
  · exact inlineVal_piece hone h ctx who

theorem renderArgs_tail (ctx : Ctx) (who : Bytes) :
    ∀ args : List Val, Val.FitArgs args →
      Returns (fun s => latex.Tail s ∧ (args ≠ [] → s ≠ [])) (renderArgs one ctx who args)
  | [], _ => returns_ok ⟨Markup.tail_nil, fun h => absurd rfl h⟩
  | a :: args, h => by
      obtain ⟨hnil, ha, hargs⟩ := h
      rw [renderArgs, if_neg (by simp [hnil])]
      refine (inlineVal_arg hone ha ctx who).bind fun s hs =>
        (renderArgs_tail ctx who args hargs).bind fun rest hrest => returns_ok ?_
      exact ⟨(fence_braces hs).toTail.append hrest.1, fun _ => List.cons_ne_nil _ _⟩

theorem envArgs_tail (ctx : Ctx) (who : Bytes) :
    ∀ args : List Val, (∀ a ∈ args, a.Fit) → (∀ a ∈ args, a.StrOk) →
      Returns latex.Tail (envArgs one ctx who args)
  | [], _, _ => returns_ok Markup.tail_nil
  | a :: args, h, hstr => by
      rw [List.forall_mem_cons] at h hstr
      have harg : Returns latex.Piece (envArg one ctx who a) := by
        unfold envArg
        split
        · exact returns_ok (RawOk.piece hstr.1)
        · exact inlineVal_piece hone h.1 ctx who
      rw [envArgs]
      split
      · exact returns_ok Markup.tail_nil
      · exact harg.bind fun s hs => (envArgs_tail ctx who args h.2 hstr.2).bind fun rest hrest =>
          returns_ok ((fence_braces hs).toTail.append hrest)

theorem termArg_tail {term : Val} (h : term.truthy = true → term.Fit) (ctx : Ctx) (who : Bytes) :
    Returns latex.Tail (termArg one ctx who term) := by
  unfold termArg
  split
  · next ht =>
      exact (inlineVal_piece hone (h ht) ctx who).bind fun s hs =>
        returns_ok (fence_brackets hs).toTail
  · exact returns_ok Markup.tail_nil

omit hone in
theorem piece_itemLine {p term body : Bytes} (hp : latex.Closed p) (hterm : latex.Tail term)
    (hbody : latex.Piece body) : latex.Piece (itemLine p term (stripLeft body)) := by
  have hitem : latex.Piece (ascii "\\item") := RawOk.piece (by decide)
  exact piece_spaced ((hp.append_piece hitem).append_tail hterm) (piece_stripLeft hbody)

/-! ## Tables and floats -/

theorem rowCells_pieces (ctx : Ctx) (what : Bytes) :
    ∀ (cells : List Val) (i : Nat), (∀ c ∈ cells, c.Fit) →
      Returns Pieces (rowCells one ctx what i cells)
  | [], _, _ => returns_ok pieces_nil
  | c :: cells, i, h => by
      rw [List.forall_mem_cons] at h
      rw [rowCells]
      split
      · split
        · exact returns_ok pieces_nil
        · exact returns_error _
      · exact (inlineVal_piece hone h.1 ctx _).bind fun s hs =>
          (rowCells_pieces ctx what cells (i + 1) h.2).bind fun rest hrest =>
            returns_ok (pieces_cons hs hrest)

theorem rowStr_piece {row : Val} (h : row.Fit) (ctx : Ctx) (what : Bytes) :
    Returns latex.Piece (rowStr one ctx what row) := by
  unfold rowStr
  split
  · next t cells =>
      have hcells := (Val.hereditary_fit.list t cells h).2
      have hamp : latex.Fence (ascii " & ") := fence_const (by decide)
      have hend : latex.Fence (ascii " \\\\") := fence_const (by decide)
      exact (rowCells_pieces hone ctx what cells 1 hcells).bind fun ss hss =>
        returns_ok ((piece_tableConcat hamp hss).append_fence hend).piece
  · exact returns_error _

theorem rowLines_pieces (ctx : Ctx) {p1 : Bytes} (hp1 : latex.Closed p1) :
    ∀ (rows : List Val) (i : Nat), (∀ r ∈ rows, r.Fit) →
      Returns Pieces (rowLines one ctx p1 i rows)
  | [], _, _ => returns_ok pieces_nil
  | r :: rows, i, h => by
      rw [List.forall_mem_cons] at h
      have ih := rowLines_pieces ctx hp1 rows (i + 1) h.2
      unfold rowLines
      split
      · split
        · exact returns_ok pieces_nil
        · exact returns_error _
      · exact ih.bind fun rest hrest =>
          returns_ok (pieces_cons (hp1.append_piece (RawOk.piece h.1)) hrest)
      · exact (rowStr_piece hone h.1 ctx _).bind fun s hs => ih.bind fun rest hrest =>
          returns_ok (pieces_cons (hp1.append_piece hs) hrest)

theorem headerLines_pieces {header : Val} (h : header.Fit) (ctx : Ctx) {p1 mid : Bytes}
    (hp1 : latex.Closed p1) (hmid : latex.Piece mid) :
    Returns Pieces (headerLines one ctx p1 mid header) := by
  unfold headerLines
  split
  · exact (rowStr_piece hone h ctx _).bind fun s hs => returns_ok
      (pieces_cons (hp1.append_piece hs) (pieces_single (hp1.append_piece hmid)))
  · exact returns_ok pieces_nil

omit hone in
theorem cols_piece {cols : Option Bytes} (h : ∀ c ∈ cols, RawOk c) (n : Nat) :
    latex.Piece (cols.getD (List.replicate n 108)) := by
  cases cols with
  | none =>
      refine (Markup.closed_plain (M := latex) ?_).piece
      intro a ha
      obtain rfl := (List.mem_replicate.mp ha).2
      exact Or.inl (by decide)
  | some c => exact (h c rfl).piece

theorem tabularBody_closed {t : TabCfg Val} (h : t.Fit) (ctx : Ctx) :
    Returns latex.Closed (tabularBody one t ctx) := by
  have hp1 : latex.Closed (pad (deeper ctx 1)) := closed_pad _
  have hrule : ∀ {a b : Bytes}, RawOk a → RawOk b → latex.Piece (if t.booktabs then a else b) := by
    intro a b ha hb
    split
    · exact ha.piece
    · exact hb.piece
  unfold tabularBody
  refine Returns.bind (Q := fun _ => True) (fun _ _ => trivial) fun k _ =>
    (headerLines_pieces hone h.2.1 ctx hp1 (hrule (by decide) (by decide))).bind fun head hhead =>
      (rowLines_pieces hone ctx hp1 t.rows 1 ((Val.fitAll_iff t.rows).mp h.2.2)).bind
        fun rows hrows => returns_ok ?_
  have hls := pieces_cons
    (hp1.append_piece (hrule (a := ascii "\\toprule") (b := ascii "\\hline") (by decide) (by decide)))
    ((hhead.append hrows).append (pieces_single (hp1.append_piece
      (hrule (a := ascii "\\bottomrule") (b := ascii "\\hline") (by decide) (by decide)))))
  have henv := closed_envLines (x := ascii "tabular") (by decide) (closed_pad ctx)
    (fence_braces (cols_piece h.1 (k.getD 1))).closed.piece hls
  simp only [List.append_assoc, List.cons_append, List.nil_append] at henv ⊢
  exact henv

theorem tabularLines_closed {t : TabCfg Val} (h : t.Fit) (ctx : Ctx) :
    Returns latex.Closed (tabularLines one t ctx) := by
  unfold tabularLines
  split
  · refine (tabularBody_closed hone h (deeper ctx 1)).bind fun inner hinner => returns_ok ?_
    have hbox : latex.Piece (ascii "\\resizebox") := RawOk.piece (by decide)
    have hwidth := fence_braces (s := ascii "\\textwidth") (RawOk.piece (by decide))
    have hheight := fence_braces (s := ascii "!") (RawOk.piece (by decide))
    have hpercent : latex.Closed (ascii "%\n") := closed_const (by decide)
    have hbody := (((hpercent.append hinner).append fence_nl.closed).append (closed_pad ctx)).piece
    have hclosed := (closed_pad ctx).append (hbox.append_fence
      (hwidth.toTail.append_fence (hheight.toTail.append_fence (fence_braces hbody))))
    simp only [List.append_assoc] at hclosed ⊢
    exact hclosed
  · exact tabularBody_closed hone h ctx

theorem captionLine_pieces {caption : Val} (h : caption.Fit) (ctx : Ctx) (env : Bytes) {p1 : Bytes}
    (hp1 : latex.Closed p1) : Returns Pieces (captionLine one ctx env p1 caption) := by
  unfold captionLine
  split
  · refine (inlineVal_piece hone h ctx env).bind fun s hs => returns_ok (pieces_single ?_)
    rw [List.append_assoc]
    exact (hp1.append (closed_command (by decide) hs)).piece
  · exact returns_ok pieces_nil

omit hone in
theorem tail_posArg {defaultPos : Bytes} (hdefault : RawOk defaultPos) :
    ∀ {pos : Pos}, pos.RawOk → latex.Tail (posArg defaultPos pos)
  | .default, _ => (fence_brackets hdefault.piece).toTail
  | .off, _ => Markup.tail_nil
  | .str _, h => (fence_brackets (RawOk.piece h)).toTail

omit hone in
theorem labelLine_pieces {p1 : Bytes} (hp1 : latex.Closed p1) {label : Option Bytes}
    (h : ∀ l ∈ label, RawOk l) : Pieces (labelLine p1 label) := by
  cases label with
  | none => exact pieces_nil
  | some l =>
      rw [labelLine, List.append_assoc]
      exact pieces_single (hp1.append (closed_label (h l rfl))).piece

theorem floatLines_closed {fl : FloatCfg Val} (h : fl.Fit) {env : Bytes} (henv : latex.Plain env)
    (ctx : Ctx) {bodyLines : List Bytes} (hbody : Pieces bodyLines) {defaultPos : Bytes}
    (hdefault : RawOk defaultPos) (defaultCap : Bytes) :
    Returns latex.Closed (floatLines one env fl ctx bodyLines defaultPos defaultCap) := by
  have hp1 : latex.Closed (pad (deeper ctx 1)) := closed_pad _
  unfold floatLines
  refine (captionLine_pieces hone h.2.1 ctx env hp1).bind fun caption hcaption => returns_ok ?_
  have hcap := hcaption.append (labelLine_pieces hp1 h.2.2)
  have hcentering : latex.Piece (pad (deeper ctx 1) ++ ascii "\\centering") :=
    hp1.append_piece (RawOk.piece (by decide))
  have hls := (((pieces_ite (b := fl.center) (pieces_single hcentering) pieces_nil).append
    (pieces_ite (b := fl.captionPos.getD defaultCap = ascii "top") hcap pieces_nil)).append hbody).append
      (pieces_ite (b := fl.captionPos.getD defaultCap = ascii "top") pieces_nil hcap)
  have hclosed := closed_envLines henv (closed_pad ctx) (tail_posArg hdefault h.1).closed.piece hls
  simp only [List.append_assoc, List.cons_append, List.nil_append] at hclosed ⊢
  exact hclosed

/-! ## The renderers -/

namespace R

omit hone in
theorem m_neat {s : Bytes} (h : RawOk s) : Neat (m s) := by
  have hdollar : latex.Fence (ascii "$") := fence_const (by decide)
  exact neat_closed ((hdollar.closed.append_piece h.piece).append_fence hdollar) false

omit hone in
theorem newcommand_neat {name definition : Bytes} {nargs : Option Bytes} (hname : IsCmdName name)
    (hdef : RawOk definition) (hnargs : ∀ s ∈ nargs, RawOk s) :
    Neat (newcommand name definition nargs) := by
  have hcommand : latex.Closed (ascii "\\newcommand" ++ braced (ascii "\\" ++ name)) :=
    closed_command (by decide) hname.piece
  have htail := tail_optArg fun s hs => (hnargs s hs).piece
  exact neat_block
    ((hcommand.append htail.closed).append (fence_braces hdef.piece).closed).piece

omit hone in
theorem mathLines_pieces {p : Bytes} (hp : latex.Closed p) (env : Bytes) {label : Option Bytes}
    {lines : List Bytes} (hlabel : ∀ l ∈ label, RawOk l) (hlines : ∀ l ∈ lines, RawOk l) :
    Pieces (mathLines p env label lines) := by
  have hspaces : latex.Closed (p ++ ascii "  ") := hp.append (closed_const (by decide))
  have hall : Pieces (lines.map fun l => p ++ ascii "  " ++ l) := by
    intro l hl
    obtain ⟨l, hmem, rfl⟩ := List.mem_map.mp hl
    exact hspaces.append_piece (hlines l hmem).piece
  cases label with
  | none => exact hall
  | some l =>
      have hbraces := fence_braces (hlabel l rfl).piece
      have hlab : latex.Piece (p ++ ascii "  \\label" ++ braced l) :=
        ((hp.append_piece (RawOk.piece (by decide))).append_fence hbraces).piece
      rw [mathLines]
      generalize lines.map (fun l => p ++ ascii "  " ++ l) = ls at hall ⊢
      cases ls with
      | nil => exact pieces_single hlab
      | cons first rest =>
          obtain ⟨hfirst, hrest⟩ := List.forall_mem_cons.mp hall
          dsimp only
          split
          · exact pieces_cons hlab hall
          · have hword : NoLetterFirst texCat (ascii " \\label") := by decide
            refine pieces_cons (Markup.Closed.piece ?_) hrest
            exact (hfirst.append (RawOk.piece (by decide)) hword).append_fence hbraces

omit hone in
theorem mathenv_neat {env : Bytes} {label : Option Bytes} {lines : List Bytes} (henv : IsName env)
    (hlabel : ∀ l ∈ label, RawOk l) (hlines : ∀ l ∈ lines, RawOk l) (star : Bool) (ctx : Ctx) :
    Neat (mathenv env star label lines ctx) := by
  have hp := closed_pad ctx
  have hname : latex.Plain (env ++ if star then ascii "*" else []) := by
    have hstar : latex.Plain (if star then ascii "*" else []) := by
      split
      · exact (by decide : latex.Plain (ascii "*"))
      · exact nofun
    exact List.forall_mem_append.mpr ⟨henv.plain, hstar⟩
  have hsep : latex.Fence (if env = ascii "equation" then ascii "\n" else ascii " \\\\\n") :=
    fence_ite fence_nl (fence_const (by decide))
  have hlines := piece_tableConcat hsep (mathLines_pieces hp env hlabel hlines)
  have hclosed := hp.append (closed_env hname
    ((fence_nl.closed.append_piece hlines).join fence_nl hp.piece))
  refine neat_block ?_
  simp only [List.append_assoc] at hclosed ⊢
  exact hclosed.piece

theorem par_neat {cs : List Val} (h : ∀ c ∈ cs, c.Fit) (ctx : Ctx) :
    Returns Neat (par one cs ctx) := by
  refine (renderChildren_neat hone h ctx _ fence_parSep).bind ?_
  rintro ⟨s, blk⟩ hs
  exact returns_ok (neat_block hs.1)

theorem cmd_neat {name : Bytes} {opts : Opts} {args : List Val} (hname : IsCmdName name)
    (hopts : opts.RawOk) (hne : args ≠ []) (hargs : Val.FitArgs args) (ctx : Ctx) :
    Returns Neat (cmd one name opts args ctx) := by
  refine (renderArgs_tail hone ctx name args hargs).bind fun s hs => returns_ok ?_
  have hfence : latex.Fence s := ⟨hs.1, hs.2 hne⟩
  exact neat_closed ((hname.piece.append_tail (tail_fmtOpts hopts)).append_fence hfence) false

theorem env_neat {name : Bytes} {opts : Opts} {args cs : List Val} (hname : IsName name)
    (hopts : opts.RawOk) (hargs : ∀ a ∈ args, a.Fit) (hstr : ∀ a ∈ args, a.StrOk)
    (hcs : ∀ c ∈ cs, c.Fit) (ctx : Ctx) : Returns Neat (env one name opts args cs ctx) := by
  unfold env
  refine Returns.bind (Q := fun _ => True) (fun _ _ => trivial) fun flat _ =>
    (envArgs_tail hone ctx name args hargs hstr).bind fun args hargs => ?_
  have hp : latex.Closed (if flat.any isItem then pad ctx else []) := by
    split
    · exact closed_pad ctx
    · exact Markup.closed_nil
  have hsep : latex.Fence (if flat.any isItem then ascii "\n" else parSep) :=
    fence_ite fence_nl fence_parSep
  refine (renderChildren_neat hone hcs _ name hsep).bind ?_
  rintro ⟨body, _⟩ hbody
  have hstart := ((tail_fmtOpts hopts).append hargs).closed.piece
  have hclosed : ∀ inner, latex.Piece inner → latex.Piece _ := fun inner hinner =>
    (hp.append (closed_env hname.plain (hinner.join fence_nl hp.piece))).piece
  refine returns_ok (neat_block ?_)
  split
  · have hpiece := hclosed _ hstart
    simp only [List.append_assoc] at hpiece ⊢
    exact hpiece
  · have hpiece := hclosed _ (hstart.join fence_nl hbody.1)
    simp only [List.append_assoc] at hpiece ⊢
    exact hpiece

theorem item_neat {term : Val} {cs : List Val} (hterm : term.Fit) (hcs : ∀ c ∈ cs, c.Fit)
    (ctx : Ctx) : Returns Neat (item one term cs ctx) := by
  unfold item
  refine (termArg_tail hone (fun _ => hterm) ctx _).bind fun term hterm =>
    (renderChildren_neat hone hcs _ _ fence_nl).bind ?_
  rintro ⟨body, _⟩ hbody
  exact returns_ok (neat_block (piece_itemLine (closed_pad ctx) hterm hbody.1))

theorem sec_neat {cmd : Bytes} {label : Option Bytes} {title cs : List Val} (hcmd : IsCmdName cmd)
    (hlabel : ∀ l ∈ label, RawOk l) (htitle : ∀ c ∈ title, c.Fit) (hcs : ∀ c ∈ cs, c.Fit)
    (star : Bool) (short : Option Bytes) (ctx : Ctx) :
    Returns Neat (sec one cmd star short label title cs ctx) := by
  unfold sec
  refine (renderChildren_neat hone htitle ctx cmd fence_parSep).bind ?_
  rintro ⟨title, _⟩ htitle
  refine (renderChildren_neat hone hcs ctx cmd fence_parSep).bind ?_
  rintro ⟨body, _⟩ hbody
  have hstar : latex.Tail (if star then ascii "*" else []) := tail_ite fence_star
  have hshort : latex.Tail (optArg (short.map escape)) := by
    refine tail_optArg fun s hs => ?_
    obtain ⟨t, -, rfl⟩ := Option.map_eq_some_iff.mp hs
    exact (closed_escape t).piece
  have hhead := (((hcmd.piece.append_tail hstar).append_tail hshort).append_fence
    (fence_braces htitle.1)).piece
  refine returns_ok (neat_block ?_)
  cases label with
  | none => exact piece_body hhead hbody.1
  | some l =>
      have hword : NoLetterFirst texCat (ascii "\n\\label") := by decide
      refine piece_body (Markup.Closed.piece ?_) hbody.1
      exact (hhead.append (RawOk.piece (by decide)) hword).append_fence
        (fence_braces (hlabel l rfl).piece)

theorem itemLines_pieces {p1 : Bytes} (hp1 : latex.Closed p1) (env : Bytes) (ctx ictx : Ctx) :
    ∀ items : List Item, (∀ it ∈ items, it.All Val.Fit) →
      Returns Pieces (itemLines one env p1 ctx ictx items)
  | [], _ => returns_ok pieces_nil
  | it :: items, h => by
      rw [List.forall_mem_cons] at h
      rw [itemLines]
      refine (termArg_tail hone h.1.1 ctx env).bind fun term hterm =>
        (renderChildren_neat hone h.1.2 ictx env fence_nl).bind ?_
      rintro ⟨body, _⟩ hbody
      exact (itemLines_pieces hp1 env ctx ictx items h.2).bind fun rest hrest =>
        returns_ok (pieces_cons (piece_itemLine hp1 hterm hbody.1) hrest)

theorem list_neat {env : Bytes} {opts : Opts} {items : List Val} (henv : IsName env)
    (hopts : opts.RawOk) (hitems : ∀ c ∈ items, c.Fit) (ctx : Ctx) :
    Returns Neat (list one env opts items ctx) := by
  unfold list
  refine (returns_groupItems Val.hereditary_fit env 1 items [] hitems nofun).bind fun its hits =>
    (itemLines_pieces hone (closed_pad _) env ctx _ its hits).bind fun lines hlines =>
      returns_ok (neat_block (Markup.Closed.piece ?_))
  exact closed_envLines henv.plain (closed_pad ctx) (tail_fmtOpts hopts).closed.piece hlines

theorem tabular_neat {t : TabCfg Val} (h : t.Fit) (ctx : Ctx) :
    Returns Neat (tabular one t ctx) :=
  (tabularLines_closed hone h ctx).bind fun _ hs => returns_ok (neat_closed hs true)

theorem table_neat {t : TabCfg Val} {fl : FloatCfg Val} (ht : t.Fit) (hfl : fl.Fit) (ctx : Ctx) :
    Returns Neat (table one t fl ctx) := by
  unfold table
  exact (tabularLines_closed hone ht _).bind fun body hbody =>
    (floatLines_closed hone hfl (by decide) ctx (pieces_single hbody.piece) (by decide) _).bind
      fun s hs => returns_ok (neat_closed hs true)

omit hone in
theorem widthOpt_pieces {width : Option Width} (h : ∀ w ∈ width, w.RawOk) :
    Pieces (widthOpt width) := by
  have hkey : latex.Closed (ascii "width=") := closed_const (by decide)
  cases width with
  | none => exact pieces_nil
  | some w =>
      cases w with
      | num g =>
          have hnum := (closed_num g).append_piece (RawOk.piece (s := ascii "\\textwidth") (by decide))
          exact pieces_single (hkey.append_piece hnum)
      | str s => exact pieces_single (hkey.append_piece (RawOk.piece (h _ rfl)))

theorem figure_neat {fig : FigCfg} {fl : FloatCfg Val} (hfig : fig.Fit) (hfl : fl.Fit)
    (ctx : Ctx) : Returns Neat (figure one fig fl ctx) := by
  have hopts : Pieces (widthOpt fig.width ++ fig.opts.toList) :=
    (widthOpt_pieces hfig.1).append fun s hs => (hfig.2.1 s (Option.mem_toList.mp hs)).piece
  have hword : latex.Piece (ascii "\\includegraphics") := RawOk.piece (by decide)
  have hline := (((closed_pad (deeper ctx 1)).append_piece hword).append_tail
    (tail_ite (b := (widthOpt fig.width ++ fig.opts.toList).length > 0)
      (fence_brackets (piece_tableConcat fence_comma hopts)))).append_fence
    (fence_braces hfig.2.2.piece)
  unfold figure
  exact (floatLines_closed hone hfl (by decide) ctx (pieces_single hline.piece) (by decide) _).bind
    fun s hs => returns_ok (neat_closed hs true)

theorem preambleLine_piece {c : Val} (h : c.Fit) (hstr : c.StrOk) (ctx : Ctx) :
    Returns latex.Piece (preambleLine one ctx c) := by
  unfold preambleLine
  split
  · exact returns_ok (RawOk.piece hstr)
  · refine (hone.fit c ctx h).bind ?_
    rintro ⟨s, blk⟩ hs
    exact returns_ok hs.1

theorem preambleLines_pieces (ctx : Ctx) :
    ∀ items : List Val, (∀ c ∈ items, c.Fit) → (∀ c ∈ items, c.StrOk) →
      Returns Pieces (preambleLines one ctx items)
  | [], _, _ => returns_ok pieces_nil
  | c :: items, h, hstr => by
      rw [List.forall_mem_cons] at h hstr
      rw [preambleLines]
      split
      · exact returns_ok pieces_nil
      · exact (preambleLine_piece hone h.1 hstr.1 ctx).bind fun s hs =>
          (preambleLines_pieces ctx items h.2 hstr.2).bind fun rest hrest =>
            returns_ok (pieces_cons hs hrest)

theorem headLine_pieces {x : Val} (h : x.Fit) (ctx : Ctx) {command : Bytes} (hcommand : RawOk command)
    (who : Bytes) : Returns Pieces (headLine one ctx command who x) := by
  unfold headLine
  split
  · exact (inlineVal_piece hone h ctx who).bind fun s hs =>
      returns_ok (pieces_single (closed_command hcommand hs).piece)
  · exact returns_ok pieces_nil

theorem dateLine_pieces {x : Val} (h : x.Fit) (ctx : Ctx) :
    Returns Pieces (dateLine one ctx x) := by
  have hdate : ∀ {s : Bytes}, latex.Piece s → Pieces [ascii "\\date" ++ braced s] := fun hs =>
    pieces_single (closed_command (by decide) hs).piece
  unfold dateLine
  split
  · exact returns_ok pieces_nil
  · exact returns_ok (hdate Markup.closed_nil.piece)
  · exact (inlineVal_piece hone h ctx _).bind fun s hs => returns_ok (hdate hs)

omit hone in
theorem usepackage_piece : ∀ {p : Pkg}, p.RawOk → latex.Piece (usepackage p)
  | .name s, h => (closed_command (by decide) (RawOk.piece h)).piece
  | .withOpts s opts, h => by
      have hword : latex.Piece (ascii "\\usepackage") := RawOk.piece (by decide)
      have hopts : latex.Tail (fmtOpts (.tab opts [])) := tail_fmtOpts ⟨h.2, nofun⟩
      exact ((hword.append_tail hopts).append_fence (fence_braces h.1.piece)).piece

omit hone in
/-- A field with a default that is a piece. -/
theorem getD_piece {o : Option Bytes} (h : ∀ s ∈ o, RawOk s) {d : Bytes} (hd : RawOk d) :
    latex.Piece (o.getD d) := by
  cases o with
  | none => exact hd.piece
  | some s => exact (h s rfl).piece

omit hone in
theorem bibPart_piece {b : Bib} (h : b.RawOk) : latex.Piece (bibPart b) := by
  have hfile := piece_tableConcat fence_comma fun s hs => (h.2 s hs).piece
  have hstyle : latex.Closed
      (ascii "\\bibliographystyle" ++ braced (b.style.getD (ascii "plain"))) :=
    closed_command (by decide) (getD_piece h.1 (by decide))
  have hbib : latex.Closed (ascii "\\bibliography" ++ braced (tableConcat (ascii ",") b.file)) :=
    closed_command (by decide) hfile
  rw [bibPart, List.append_assoc]
  exact ((hstyle.append fence_nl.closed).append hbib).piece

omit hone in
/-- The two parts of a document, around its `\begin` and `\end`. -/
theorem piece_document {head : Bytes} {parts : List Bytes} (hhead : latex.Piece head)
    (hparts : Pieces parts) :
    latex.Piece ((if parts.length > 0 then
        head ++ ascii "\n\n" ++ beginTag (ascii "document") ++ ascii "\n\n"
          ++ tableConcat (ascii "\n\n") parts
      else head ++ ascii "\n\n" ++ beginTag (ascii "document"))
        ++ ascii "\n\n" ++ endTag (ascii "document")) := by
  have hjoin := piece_tableConcat fence_parSep hparts
  have hdoc : ∀ inner, latex.Piece inner → latex.Piece _ := fun inner hinner =>
    hhead.join fence_parSep (closed_env (x := ascii "document") (by decide) hinner).piece
  split
  · have hpiece := hdoc _ (fence_parSep.closed.append_piece (hjoin.append_fence fence_parSep).piece)
    simp only [List.append_assoc] at hpiece ⊢
    exact hpiece
  · have hpiece := hdoc _ fence_parSep.closed.piece
    simp only [List.append_assoc] at hpiece ⊢
    exact hpiece

theorem document_neat {d : DocCfg Val} {cs : List Val} (h : d.Fit) (hcs : ∀ c ∈ cs, c.Fit)
    (ctx : Ctx) : Returns Neat (document one d cs ctx) := by
  unfold document
  refine (preambleLines_pieces hone ctx _ h.preamble h.lines).bind fun preamble hpreamble =>
    (headLine_pieces hone h.title ctx (by decide) _).bind fun title htitle =>
      (headLine_pieces hone h.author ctx (by decide) _).bind fun author hauthor =>
        (dateLine_pieces hone h.date ctx).bind fun date hdate =>
          (renderChildren_neat hone hcs ctx _ fence_parSep).bind ?_
  rintro ⟨body, _⟩ hbody
  have hword : latex.Piece (ascii "\\documentclass") := RawOk.piece (by decide)
  have hcls := ((hword.append_tail (tail_fmtOpts h.opts)).append_fence
    (fence_braces (getD_piece (d := ascii "article") h.cls (by decide)))).piece
  have hpackages : Pieces (d.packages.map usepackage) := by
    intro l hl
    obtain ⟨p, hp, rfl⟩ := List.mem_map.mp hl
    exact usepackage_piece (h.packages p hp)
  have hbib : Pieces (d.bib.map bibPart).toList := by
    intro l hl
    obtain ⟨b, hb, rfl⟩ := Option.map_eq_some_iff.mp (Option.mem_toList.mp hl)
    exact bibPart_piece (h.bib b hb)
  have hhead := (((((pieces_single hcls).append hpackages).append hpreamble).append htitle).append
    hauthor).append hdate
  have hmaketitle : latex.Piece (ascii "\\maketitle") := RawOk.piece (by decide)
  have htoc : latex.Piece (ascii "\\tableofcontents") := RawOk.piece (by decide)
  have hparts := (((pieces_ite (b := (d.title.truthy && d.maketitle) = true)
    (pieces_single hmaketitle) pieces_nil).append
      (pieces_ite (b := d.toc = true) (pieces_single htoc) pieces_nil)).append
        (pieces_ite (b := body = []) pieces_nil (pieces_single hbody.1))).append hbib
  exact returns_ok (neat_block (piece_document (piece_tableConcat fence_nl hhead) hparts))

end R

end

/-! ## Every tree -/

theorem renderOne_neat : ∀ n : Nat, NeatOne (renderOne n)
  | 0 => ⟨fun _ _ _ => returns_error _, fun _ _ _ => returns_error _⟩
  | n + 1 => by
      have hone := renderOne_neat n
      have hall := fun cs => (Val.fitAll_iff cs).mp
      refine ⟨fun c ctx h => ?_, fun c ctx h => ?_⟩
      · cases c with
        | nil => exact returns_error _
        | bool b => exact returns_error _
        | num k => exact returns_ok (neat_closed (closed_num k) false)
        | str s => exact returns_ok (neat_closed (closed_escape s) false)
        | other tc => exact returns_error _
        | list t items => exact returns_error _
        | raw s block =>
            obtain ⟨rfl, hs⟩ := h
            exact returns_ok (neat_block (RawOk.piece hs))
        | frag cs => exact renderChildren_neat hone (hall cs h) ctx _ fence_parSep
        | par cs => exact R.par_neat hone (hall cs h) ctx
        | cmd name opts args =>
            obtain ⟨hname, hopts, hne, hargs⟩ := h
            exact R.cmd_neat hone hname hopts hne hargs ctx
        | env name opts args cs =>
            obtain ⟨hname, hopts, ⟨hargs, hstr⟩, hcs⟩ := h
            exact R.env_neat hone hname hopts (hall args hargs) hstr (hall cs hcs) ctx
        | item term cs => exact R.item_neat hone h.1 (hall cs h.2) ctx
        | m s => exact returns_ok (R.m_neat h)
        | newcommand name definition nargs =>
            exact returns_ok (R.newcommand_neat h.1 h.2.1 h.2.2)
        | sec cmd star short label title cs =>
            obtain ⟨hcmd, hlabel, htitle, hcs⟩ := h
            exact R.sec_neat hone hcmd hlabel (hall title htitle) (hall cs hcs) star short ctx
        | listenv env opts items => exact R.list_neat hone h.1 h.2.1 (hall items h.2.2) ctx
        | mathenv env star label lines =>
            exact returns_ok (R.mathenv_neat h.1 h.2.1 h.2.2 star ctx)
        | verbatim s => exact h.elim
        | lstlisting code opts => exact h.elim
        | rule cmd => exact returns_ok (neat_block (RawOk.piece h))
        | tabular t => exact R.tabular_neat hone h ctx
        | table t fl => exact R.table_neat hone h.1 h.2 ctx
        | figure fig fl => exact R.figure_neat hone h.1 h.2 ctx
        | document d cs =>
            obtain ⟨⟨hopts, hcls, hpkg, hbib⟩, ⟨hpre, hlines⟩, ⟨htitle, hauthor, hdate⟩, hcs⟩ := h
            exact R.document_neat hone
              ⟨hopts, hcls, hpkg, hbib, hall _ hpre, hlines, htitle, hauthor, hdate⟩ (hall cs hcs) ctx
      · cases c with
        | raw s block => exact returns_ok (RawOk.piece h)
        | frag cs =>
            obtain ⟨c, rfl, hc⟩ := h.eq
            exact renderChildren_sole hone hc ctx _ _
        | list t items => exact returns_error _
        | _ => exact h.elim

/-- **What a fit tree renders to is well nested**: the braces balance, and each
`\begin{x}` has its `\end{x}`, inside each other. -/
theorem render_wellNested (x : Val) (indent : Bool) (h : x.Fit) :
    render x indent ≠ .error .depth ∧
      ∀ s, render x indent = .ok s →
        BracesBalance (lex texCat s) ∧ latex.WellNested s := by
  refine ⟨render_ne_depth x indent, fun s hs => ?_⟩
  have hpiece : latex.Piece s := inlineVal_piece (renderOne_neat x.depth) h _ _ s hs
  exact ⟨hpiece.wellNested.braces, hpiece.wellNested⟩

/-- An environment whose text spells its own end, before a command with a raw argument. -/
def centered : Val :=
  .env (ascii "center") (.str (ascii "t")) []
    [.str (ascii "\\end{center}"), .cmd (ascii "textbf") .none [.raw (ascii "\\alpha") false]]

def centeredText : Bytes :=
  ascii "\\begin{center}[t]\n\\textbackslash{}end\\\x7bcenter\\\x7d\\textbf\x7b\\alpha\x7d\n\\end{center}"

theorem render_wellNested_centered :
    render centered true = .ok centeredText ∧ latex.WellNested centeredText := by
  have hrun : render centered true = .ok centeredText := rfl
  have hfit : centered.Fit :=
    ⟨by decide, show RawOk _ by decide, ⟨trivial, List.forall_mem_nil _⟩, trivial,
      ⟨by decide, trivial, List.cons_ne_nil _ _, rfl, Or.inl (show RawOk _ by decide), trivial⟩, trivial⟩
  exact ⟨hrun, ((render_wellNested centered true hfit).2 _ hrun).2⟩

end Tmg.Latex
