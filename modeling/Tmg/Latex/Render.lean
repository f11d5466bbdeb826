/-
# `Tmg.Latex.Render` — the renderers of `latex.lua`

`L.render` walks a value through one renderer for each kind of node.  The renderers call
`render_one` on their children, so each of them takes that function as the parameter
`one`; `renderOne` ties the knot, counting down the depth of the value, and
`Tmg.Latex.Total` shows that the count never runs out.

| source | here |
| :-- | :-- |
| `flatten`, `render_children`, `inline` | `flattenFrom`, `renderChildren`, `inlineVal` |
| `R.frag`, `R.cmd`, … | `R.frag`, `R.cmd`, … |
| `error(("latex: …"):format(…), 0)` | the constructors of `LatexError` |
| the second result of a renderer | `true` for a block |
-/
import Tmg.Latex.Node
import Mathlib.Data.List.Sort

namespace Tmg.Latex

open Tmg

/-! ## Errors -/

/-- The errors of rendering. `depth` is not one of the source: see `renderOne`. -/
inductive LatexError where
  | childNil (who : Bytes) (i : Nat)
  | itemNil (env : Bytes) (i : Nat)
  | cannotRender (tc : Bytes)
  | rowNotList (what : Bytes)
  | cellNil (i : Nat) (what : Bytes)
  | rowNil (i : Nat)
  | notTable (tc : Bytes)
  | depth
deriving DecidableEq, Repr

/-- A number as `%d` writes it. -/
def decimal (n : Nat) : Bytes := ascii (toString n)

/-- The text of an error. -/
def LatexError.message : LatexError → Bytes
  | childNil who i => ascii "latex: " ++ who ++ ascii ": child #" ++ decimal i ++ ascii " is nil"
  | itemNil env i => ascii "latex: " ++ env ++ ascii ": item #" ++ decimal i ++ ascii " is nil"
  | cannotRender tc => ascii "latex: cannot render a " ++ tc ++ ascii " value"
  | rowNotList what => ascii "latex: table: " ++ what ++ ascii " must be a list of cells"
  | cellNil i what => ascii "latex: table: nil cell #" ++ decimal i ++ ascii " in " ++ what
  | rowNil i => ascii "latex: table: row #" ++ decimal i ++ ascii " is nil"
  | notTable tc =>
      ascii "bad argument #1 to 'maxn' (table expected, got " ++ tc ++ ascii ")"
  | depth => []

/-! ## Strings -/

/-- `table.concat(ss, sep)` -/
def tableConcat (sep : Bytes) : List Bytes → Bytes
  | [] => []
  | [s] => s
  | s :: t :: ss => s ++ (sep ++ tableConcat sep (t :: ss))

theorem tableConcat_nil : ∀ ss : List Bytes, tableConcat [] ss = ss.flatten
  | [] => rfl
  | [s] => by simp [tableConcat]
  | s :: t :: ss => by
      have ih := tableConcat_nil (t :: ss)
      rw [tableConcat, ih]
      simp

theorem tableConcat_cons (sep : Bytes) :
    ∀ (s : Bytes) (ss : List Bytes), tableConcat sep (s :: ss) = s ++ ss.flatMap (sep ++ ·)
  | s, [] => by simp [tableConcat]
  | s, t :: ss => by
      rw [tableConcat, tableConcat_cons sep t ss, List.flatMap_cons, List.append_assoc]

/-- `"{" .. s .. "}"` -/
def braced (s : Bytes) : Bytes := 123 :: (s ++ [125])

/-- `"[" .. s .. "]"` -/
def bracketed (s : Bytes) : Bytes := 91 :: (s ++ [93])

/-- `"\\begin{" .. x .. "}"` -/
def beginTag (x : Bytes) : Bytes := ascii "\\begin" ++ braced x

/-- `"\\end{" .. x .. "}"` -/
def endTag (x : Bytes) : Bytes := ascii "\\end" ++ braced x

/-- The entry of `ESC` for a byte. -/
def esc? (c : Byte) : Option Bytes :=
  if c = bsl then some (ascii "\\textbackslash{}")
  else if c ∈ ascii "&%$#_{}" then some [bsl, c]
  else if c = 126 then some (ascii "\\textasciitilde{}")
  else if c = 94 then some (ascii "\\textasciicircum{}")
  else none

/-- `escape` -/
def escape (s : Bytes) : Bytes := s.flatMap fun c => (esc? c).getD [c]

/-- `%s` -/
def isSpace (c : Byte) : Bool := c = 32 || (9 ≤ c && c ≤ 13)

/-- `s:gsub("^%s+", "")` -/
def stripLeft (s : Bytes) : Bytes := s.dropWhile isSpace

/-- `s1 <= s2` of Lua strings. -/
def strLe : Bytes → Bytes → Bool
  | [], _ => true
  | _ :: _, [] => false
  | a :: s, b :: t => if a = b then strLe s t else a < b

/-- `k`, or `k=v` -/
def fmtField : Bytes × OptVal → Bytes
  | (k, .flag) => k
  | (k, .val v) => k ++ ascii "=" ++ v

/-- `fmt_opts` -/
def fmtOpts : Opts → Bytes
  | .none => []
  | .str s => if s = [] then [] else bracketed s
  | .tab arr fields =>
      let parts := arr ++ (fields.insertionSort fun a b => strLe a.1 b.1).map fmtField
      if parts = [] then [] else bracketed (tableConcat (ascii ",") parts)

/-! ## The rendering core -/

/-- The rendering context. -/
structure Ctx where
  indent : Bool
  depth : Nat
deriving DecidableEq, Repr

/-- `pad` -/
def pad (ctx : Ctx) : Bytes := if ctx.indent then List.replicate (2 * ctx.depth) 32 else []

/-- `deeper` -/
def deeper (ctx : Ctx) (k : Nat) : Ctx := { ctx with depth := ctx.depth + k }

mutual

/-- A child of `flatten`: a list gives its own children. -/
def flattenOne (who : Bytes) : Val → Except LatexError (List Val)
  | .list _ items => flattenFrom who 1 items
  | c => .ok [c]

/-- `flatten`, from the index `i` on. -/
def flattenFrom (who : Bytes) : Nat → List Val → Except LatexError (List Val)
  | _, [] => .ok []
  | i, c :: cs =>
      if c.isNil then if Val.allNil cs then .ok [] else .error (.childNil who i)
      else do
        let a ← flattenOne who c
        let b ← flattenFrom who (i + 1) cs
        return a ++ b

end

/-- `flatten(list, {}, who)` -/
def flatten (who : Bytes) (list : List Val) : Except LatexError (List Val) :=
  flattenFrom who 1 list

/-- The locals of the loop in `render_children`. -/
structure Glue where
  out : List Bytes
  prevBlock : Bool
  anyBlock : Bool
deriving DecidableEq, Repr

/-- One turn of that loop. -/
def Glue.push (bsep : Bytes) (g : Glue) (s : Bytes) (blk : Bool) : Glue :=
  if blk = true ∨ s ≠ [] then
    let out := if g.out.length > 0 ∧ (blk = true ∨ g.prevBlock = true) then g.out ++ [bsep]
      else g.out
    { out := out ++ [s], prevBlock := blk, anyBlock := g.anyBlock || blk }
  else g

section

variable (one : Val → Ctx → Except LatexError (Bytes × Bool))

/-- The loop in `render_children`. -/
def renderItems (ctx : Ctx) (bsep : Bytes) : List Val → Glue → Except LatexError Glue
  | [], g => .ok g
  | c :: cs, g => do
      let (s, blk) ← one c ctx
      renderItems ctx bsep cs (g.push bsep s blk)

/-- `render_children` -/
def renderChildren (children : List Val) (ctx : Ctx) (who bsep : Bytes) :
    Except LatexError (Bytes × Bool) := do
  let items ← flatten who children
  let g ← renderItems one ctx bsep items { out := [], prevBlock := false, anyBlock := false }
  return (tableConcat [] g.out, g.anyBlock)

/-- The default of `bsep`. -/
def parSep : Bytes := ascii "\n\n"

/-- `inline` -/
def inlineVal (x : Val) (ctx : Ctx) (who : Bytes) : Except LatexError Bytes := do
  let (s, _) ← renderChildren one [x] ctx who parSep
  return s

/-- `render_args` -/
def renderArgs (ctx : Ctx) (who : Bytes) : List Val → Except LatexError Bytes
  | [] => .ok []
  | a :: args =>
      if a.isNil then .ok []
      else do
        let s ← inlineVal one a ctx who
        let rest ← renderArgs ctx who args
        return braced s ++ rest

/-- `type(a) == "string" and a or inline(a, ctx, who)` -/
def envArg (ctx : Ctx) (who : Bytes) : Val → Except LatexError Bytes
  | .str s => .ok s
  | a => inlineVal one a ctx who

/-- `env_args` -/
def envArgs (ctx : Ctx) (who : Bytes) : List Val → Except LatexError Bytes
  | [] => .ok []
  | a :: args =>
      if a.isNil then .ok []
      else do
        let s ← envArg one ctx who a
        let rest ← envArgs ctx who args
        return braced s ++ rest

/-- `n.term and ("[" .. inline(n.term, ctx, who) .. "]") or ""` -/
def termArg (ctx : Ctx) (who : Bytes) (term : Val) : Except LatexError Bytes :=
  if term.truthy then do
    let s ← inlineVal one term ctx who
    return bracketed s
  else .ok []

/-- `body ~= "" and (" " .. body) or ""` -/
def spaced (body : Bytes) : Bytes := if body = [] then [] else ascii " " ++ body

/-- A line `\item`, with its term and its body. -/
def itemLine (p term body : Bytes) : Bytes := p ++ ascii "\\item" ++ term ++ spaced body

end

/-! ## The items of a list -/

/-- An entry of `items` in `R.list`. -/
structure Item where
  term : Val
  parts : List Val

/-- A part added to the last item. -/
def addToLast (it : Val) : List Item → List Item
  | [] => []
  | [x] => [{ x with parts := x.parts ++ [it] }]
  | x :: y :: items => x :: addToLast it (y :: items)

/-- The first loop of `R.list`, from the index `i` on. -/
def groupItems (env : Bytes) : Nat → List Val → List Item → Except LatexError (List Item)
  | _, [], items => .ok items
  | i, it :: rest, items =>
      match it with
      | .nil => if Val.allNil rest then .ok items else .error (.itemNil env i)
      | .listenv e o its =>
          if items.length > 0 then groupItems env (i + 1) rest (addToLast (.listenv e o its) items)
          else groupItems env (i + 1) rest (items ++ [⟨.nil, [.listenv e o its]⟩])
      | .list term its => groupItems env (i + 1) rest (items ++ [⟨term, Val.trim its⟩])
      | .item term its => groupItems env (i + 1) rest (items ++ [⟨term, Val.trim its⟩])
      | it => groupItems env (i + 1) rest (items ++ [⟨.nil, [it]⟩])

/-! ## Tables -/

section

variable (one : Val → Ctx → Except LatexError (Bytes × Bool))

/-- The cells of a row, from the index `i` on. -/
def rowCells (ctx : Ctx) (what : Bytes) : Nat → List Val → Except LatexError (List Bytes)
  | _, [] => .ok []
  | i, c :: cells =>
      if c.isNil then if Val.allNil cells then .ok [] else .error (.cellNil i what)
      else do
        let s ← inlineVal one c ctx (ascii "cell")
        let rest ← rowCells ctx what (i + 1) cells
        return s :: rest

/-- `row_str` -/
def rowStr (ctx : Ctx) (what : Bytes) : Val → Except LatexError Bytes
  | .list _ cells => do
      let out ← rowCells one ctx what 1 cells
      return tableConcat (ascii " & ") out ++ ascii " \\\\"
  | _ => .error (.rowNotList what)

/-- `table.maxn(header)`, for a header that is not false; what `row_str` refuses later
has no length here. -/
def headerLen : Val → Except LatexError Nat
  | .list _ cells => .ok (Val.trim cells).length
  | .bool _ => .error (.notTable (ascii "boolean"))
  | .num _ => .error (.notTable (ascii "number"))
  | .str _ => .error (.notTable (ascii "string"))
  | .other tc => if tc = ascii "table" then .ok 0 else .error (.notTable tc)
  | _ => .ok 0

/-- The length of the first row that is a list. -/
def firstRowLen : List Val → Option Nat
  | [] => none
  | .list _ cells :: _ => some (Val.trim cells).length
  | r :: rows => if r.isNil then none else firstRowLen rows

/-- The lines of the rows, from the index `i` on. -/
def rowLines (ctx : Ctx) (p1 : Bytes) : Nat → List Val → Except LatexError (List Bytes)
  | _, [] => .ok []
  | i, r :: rows =>
      match r with
      | .nil => if Val.allNil rows then .ok [] else .error (.rowNil i)
      | .rule cmd => do
          let rest ← rowLines ctx p1 (i + 1) rows
          return (p1 ++ cmd) :: rest
      | r => do
          let s ← rowStr one ctx (ascii "row #" ++ decimal i) r
          let rest ← rowLines ctx p1 (i + 1) rows
          return (p1 ++ s) :: rest

/-- `ncols` -/
def ncols (t : TabCfg Val) : Except LatexError (Option Nat) :=
  if t.header.truthy then do
    let n ← headerLen t.header
    return some n
  else .ok (firstRowLen t.rows)

/-- The lines of the header. -/
def headerLines (ctx : Ctx) (p1 mid : Bytes) (header : Val) : Except LatexError (List Bytes) :=
  if header.truthy then do
    let s ← rowStr one ctx (ascii "header") header
    return [p1 ++ s, p1 ++ mid]
  else .ok []

/-- `tabular_lines` of a table without `resize`. -/
def tabularBody (t : TabCfg Val) (ctx : Ctx) : Except LatexError Bytes := do
  let p := pad ctx
  let p1 := pad (deeper ctx 1)
  let top := if t.booktabs then ascii "\\toprule" else ascii "\\hline"
  let mid := if t.booktabs then ascii "\\midrule" else ascii "\\hline"
  let bot := if t.booktabs then ascii "\\bottomrule" else ascii "\\hline"
  let n ← ncols t
  let cols := t.cols.getD (List.replicate (n.getD 1) 108)
  let head ← headerLines one ctx p1 mid t.header
  let rows ← rowLines one ctx p1 1 t.rows
  return tableConcat (ascii "\n")
    ([p ++ beginTag (ascii "tabular") ++ braced cols, p1 ++ top] ++ head ++ rows
      ++ [p1 ++ bot, p ++ endTag (ascii "tabular")])

/-- `tabular_lines` -/
def tabularLines (t : TabCfg Val) (ctx : Ctx) : Except LatexError Bytes :=
  if t.resize then do
    let p := pad ctx
    let inner ← tabularBody one t (deeper ctx 1)
    return p ++ ascii "\\resizebox" ++ braced (ascii "\\textwidth") ++ braced (ascii "!")
      ++ braced (ascii "%\n" ++ inner ++ ascii "\n" ++ p)
  else tabularBody one t ctx

/-- The `[pos]` of a float. -/
def posArg (defaultPos : Bytes) : Pos → Bytes
  | .default => bracketed defaultPos
  | .off => []
  | .str s => bracketed s

/-- The line of the label. -/
def labelLine (p1 : Bytes) : Option Bytes → List Bytes
  | some l => [p1 ++ ascii "\\label" ++ braced l]
  | none => []

/-- The line of the caption. -/
def captionLine (ctx : Ctx) (env p1 : Bytes) (caption : Val) : Except LatexError (List Bytes) :=
  if caption.truthy then do
    let s ← inlineVal one caption ctx env
    return [p1 ++ ascii "\\caption" ++ braced s]
  else .ok []

/-- `float_lines` -/
def floatLines (env : Bytes) (n : FloatCfg Val) (ctx : Ctx) (bodyLines : List Bytes)
    (defaultPos defaultCap : Bytes) : Except LatexError Bytes := do
  let p := pad ctx
  let p1 := pad (deeper ctx 1)
  let pos := posArg defaultPos n.pos
  let centering := if n.center then [p1 ++ ascii "\\centering"] else []
  let caption ← captionLine one ctx env p1 n.caption
  let cap := caption ++ labelLine p1 n.label
  let top := n.captionPos.getD defaultCap = ascii "top"
  return tableConcat (ascii "\n")
    ([p ++ beginTag env ++ pos] ++ centering
      ++ (if top then cap else []) ++ bodyLines ++ (if top then [] else cap)
      ++ [p ++ endTag env])

end

/-! ## The renderers -/

namespace R

def raw (s : Bytes) (block : Bool) : Bytes × Bool := (s, block)

def m (s : Bytes) : Bytes × Bool := (ascii "$" ++ s ++ ascii "$", false)

/-- `x and ("[" .. x .. "]") or ""` -/
def optArg : Option Bytes → Bytes
  | some s => bracketed s
  | none => []

def newcommand (name definition : Bytes) (nargs : Option Bytes) : Bytes × Bool :=
  (ascii "\\newcommand" ++ braced (ascii "\\" ++ name) ++ optArg nargs ++ braced definition, true)

/-- The lines of a math environment, with its label. -/
def mathLines (p env : Bytes) (label : Option Bytes) (lines : List Bytes) : List Bytes :=
  let lines := lines.map fun l => p ++ ascii "  " ++ l
  match label with
  | none => lines
  | some l =>
      match lines with
      | [] => [p ++ ascii "  \\label" ++ braced l]
      | first :: rest =>
          if env = ascii "equation" then (p ++ ascii "  \\label" ++ braced l) :: first :: rest
          else (first ++ ascii " \\label" ++ braced l) :: rest

def mathenv (env : Bytes) (star : Bool) (label : Option Bytes) (lines : List Bytes) (ctx : Ctx) :
    Bytes × Bool :=
  let p := pad ctx
  let name := env ++ if star then ascii "*" else []
  let sep := if env = ascii "equation" then ascii "\n" else ascii " \\\\\n"
  (p ++ beginTag name ++ ascii "\n" ++ tableConcat sep (mathLines p env label lines)
    ++ ascii "\n" ++ p ++ endTag name, true)

def verbatim (s : Bytes) : Bytes × Bool :=
  (beginTag (ascii "verbatim") ++ ascii "\n" ++ s ++ ascii "\n" ++ endTag (ascii "verbatim"), true)

def lstlisting (code : Bytes) (opts : Opts) : Bytes × Bool :=
  (beginTag (ascii "lstlisting") ++ fmtOpts opts ++ ascii "\n" ++ code ++ ascii "\n"
    ++ endTag (ascii "lstlisting"), true)

def rule (cmd : Bytes) : Bytes × Bool := (cmd, true)

section

variable (one : Val → Ctx → Except LatexError (Bytes × Bool))

def frag (cs : List Val) (ctx : Ctx) : Except LatexError (Bytes × Bool) :=
  renderChildren one cs ctx (ascii "frag") parSep

def par (cs : List Val) (ctx : Ctx) : Except LatexError (Bytes × Bool) := do
  let (s, _) ← renderChildren one cs ctx (ascii "par") parSep
  return (s, true)

def cmd (name : Bytes) (opts : Opts) (args : List Val) (ctx : Ctx) :
    Except LatexError (Bytes × Bool) := do
  let args ← renderArgs one ctx name args
  return (ascii "\\" ++ name ++ fmtOpts opts ++ args, false)

/-- `is_node(c) and c._t == "item"` -/
def isItem : Val → Bool
  | .item _ _ => true
  | _ => false

def env (name : Bytes) (opts : Opts) (args cs : List Val) (ctx : Ctx) :
    Except LatexError (Bytes × Bool) := do
  let flat ← flatten name cs
  let hasItems := flat.any isItem
  let p := if hasItems then pad ctx else []
  let bctx := if hasItems then deeper ctx 1 else ctx
  let bsep := if hasItems then ascii "\n" else parSep
  let args ← envArgs one ctx name args
  let s := p ++ beginTag name ++ fmtOpts opts ++ args
  let (body, _) ← renderChildren one cs bctx name bsep
  let s := if body = [] then s else s ++ ascii "\n" ++ body
  return (s ++ ascii "\n" ++ p ++ endTag name, true)

def item (term : Val) (cs : List Val) (ctx : Ctx) : Except LatexError (Bytes × Bool) := do
  let term ← termArg one ctx (ascii "item") term
  let (body, _) ← renderChildren one cs (deeper ctx 1) (ascii "item") (ascii "\n")
  return (itemLine (pad ctx) term (stripLeft body), true)

def sec (cmd : Bytes) (star : Bool) (short label : Option Bytes) (title cs : List Val) (ctx : Ctx) :
    Except LatexError (Bytes × Bool) := do
  let sh := optArg (short.map escape)
  let (title, _) ← renderChildren one title ctx cmd parSep
  let head := ascii "\\" ++ cmd ++ (if star then ascii "*" else []) ++ sh ++ braced title
  let head := match label with
    | some l => head ++ ascii "\n\\label" ++ braced l
    | none => head
  let (body, _) ← renderChildren one cs ctx cmd parSep
  return (if body = [] then head else head ++ ascii "\n\n" ++ body, true)

/-- The lines of the items. -/
def itemLines (env p1 : Bytes) (ctx ictx : Ctx) : List Item → Except LatexError (List Bytes)
  | [] => .ok []
  | it :: items => do
      let term ← termArg one ctx env it.term
      let (body, _) ← renderChildren one it.parts ictx env (ascii "\n")
      let rest ← itemLines env p1 ctx ictx items
      return itemLine p1 term (stripLeft body) :: rest

def list (env : Bytes) (opts : Opts) (items : List Val) (ctx : Ctx) :
    Except LatexError (Bytes × Bool) := do
  let p := pad ctx
  let items ← groupItems env 1 items []
  let lines ← itemLines one env (pad (deeper ctx 1)) ctx (deeper ctx 2) items
  return (tableConcat (ascii "\n")
    ([p ++ beginTag env ++ fmtOpts opts] ++ lines
      ++ [p ++ endTag env]), true)

def tabular (t : TabCfg Val) (ctx : Ctx) : Except LatexError (Bytes × Bool) := do
  let s ← tabularLines one t ctx
  return (s, true)

def table (t : TabCfg Val) (fl : FloatCfg Val) (ctx : Ctx) : Except LatexError (Bytes × Bool) := do
  let body ← tabularLines one t (deeper ctx 1)
  let s ← floatLines one (ascii "table") fl ctx [body] (ascii "htbp") (ascii "top")
  return (s, true)

/-- The option for the width. -/
def widthOpt : Option Width → List Bytes
  | some (.num g) => [ascii "width=" ++ (g.text ++ ascii "\\textwidth")]
  | some (.str w) => [ascii "width=" ++ w]
  | none => []

def figure (fig : FigCfg) (fl : FloatCfg Val) (ctx : Ctx) : Except LatexError (Bytes × Bool) := do
  let o := widthOpt fig.width ++ fig.opts.toList
  let opts := if o.length > 0 then bracketed (tableConcat (ascii ",") o) else []
  let line := pad (deeper ctx 1) ++ ascii "\\includegraphics" ++ opts ++ braced fig.file
  let s ← floatLines one (ascii "figure") fl ctx [line] (ascii "htbp") (ascii "bottom")
  return (s, true)

/-- A line of `packages`. -/
def usepackage : Pkg → Bytes
  | .name s => ascii "\\usepackage" ++ braced s
  | .withOpts s opts => ascii "\\usepackage" ++ fmtOpts (.tab opts []) ++ braced s

/-- A line of `preamble`: a string is a line as it is. -/
def preambleLine (ctx : Ctx) : Val → Except LatexError Bytes
  | .str s => .ok s
  | item => do
      let (s, _) ← one item ctx
      return s

/-- The lines of `preamble`. -/
def preambleLines (ctx : Ctx) : List Val → Except LatexError (List Bytes)
  | [] => .ok []
  | item :: items =>
      if item.isNil then .ok []
      else do
        let s ← preambleLine one ctx item
        let rest ← preambleLines ctx items
        return s :: rest

/-- `\title{…}` and its like, for a field that is not false. -/
def headLine (ctx : Ctx) (command who : Bytes) (x : Val) : Except LatexError (List Bytes) :=
  if x.truthy then do
    let s ← inlineVal one x ctx who
    return [command ++ braced s]
  else .ok []

/-- The line of `date`: `false` suppresses the date. -/
def dateLine (ctx : Ctx) (date : Val) : Except LatexError (List Bytes) :=
  match date with
  | .nil => .ok []
  | .bool false => .ok [ascii "\\date" ++ braced []]
  | date => do
      let s ← inlineVal one date ctx (ascii "date")
      return [ascii "\\date" ++ braced s]

/-- The bibliography of a document. -/
def bibPart (b : Bib) : Bytes :=
  ascii "\\bibliographystyle" ++ braced (b.style.getD (ascii "plain")) ++ ascii "\n"
    ++ ascii "\\bibliography" ++ braced (tableConcat (ascii ",") b.file)

def document (d : DocCfg Val) (cs : List Val) (ctx : Ctx) : Except LatexError (Bytes × Bool) := do
  let cls := ascii "\\documentclass" ++ fmtOpts d.opts ++ braced (d.cls.getD (ascii "article"))
  let preamble ← preambleLines one ctx d.preamble
  let title ← headLine one ctx (ascii "\\title") (ascii "title") d.title
  let author ← headLine one ctx (ascii "\\author") (ascii "author") d.author
  let date ← dateLine one ctx d.date
  let head := [cls] ++ d.packages.map usepackage ++ preamble ++ title ++ author ++ date
  let maketitle := if d.title.truthy && d.maketitle then [ascii "\\maketitle"] else []
  let toc := if d.toc then [ascii "\\tableofcontents"] else []
  let (body, _) ← renderChildren one cs ctx (ascii "document") parSep
  let parts := maketitle ++ toc ++ (if body = [] then [] else [body])
    ++ (d.bib.map bibPart).toList
  let s := tableConcat (ascii "\n") head ++ ascii "\n\n" ++ beginTag (ascii "document")
  let s := if parts.length > 0 then s ++ ascii "\n\n" ++ tableConcat (ascii "\n\n") parts else s
  return (s ++ ascii "\n\n" ++ endTag (ascii "document"), true)

end

end R

/-! ## `L.render` -/

/-- `render_one`, for values nested at most `fuel` deep. -/
def renderOne : Nat → Val → Ctx → Except LatexError (Bytes × Bool)
  | 0, _, _ => .error .depth
  | fuel + 1, c, ctx =>
      let one := renderOne fuel
      match c with
      | .str s => .ok (escape s, false)
      | .num n => .ok (n.text, false)
      | .nil => .error (.cannotRender (ascii "nil"))
      | .bool _ => .error (.cannotRender (ascii "boolean"))
      | .list _ _ => .error (.cannotRender (ascii "table"))
      | .other tc => .error (.cannotRender tc)
      | .raw s block => .ok (R.raw s block)
      | .frag cs => R.frag one cs ctx
      | .par cs => R.par one cs ctx
      | .cmd name opts args => R.cmd one name opts args ctx
      | .env name opts args cs => R.env one name opts args cs ctx
      | .item term cs => R.item one term cs ctx
      | .m s => .ok (R.m s)
      | .newcommand name definition nargs => .ok (R.newcommand name definition nargs)
      | .sec cmd star short label title cs => R.sec one cmd star short label title cs ctx
      | .listenv env opts items => R.list one env opts items ctx
      | .mathenv env star label lines => .ok (R.mathenv env star label lines ctx)
      | .verbatim s => .ok (R.verbatim s)
      | .lstlisting code opts => .ok (R.lstlisting code opts)
      | .rule cmd => .ok (R.rule cmd)
      | .tabular t => R.tabular one t ctx
      | .table t fl => R.table one t fl ctx
      | .figure fig fl => R.figure one fig fl ctx
      | .document d cs => R.document one d cs ctx

/-- `L.render(x, { indent = indent })` -/
def render (x : Val) (indent : Bool) : Except LatexError Bytes := do
  let (s, _) ← renderChildren (renderOne x.depth) [x] { indent := indent, depth := 0 }
    (ascii "render") parSep
  return s

end Tmg.Latex
