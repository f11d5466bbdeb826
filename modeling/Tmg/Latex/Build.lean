/-
# `Tmg.Latex.Build` — the constructors of `latex.lua`

A node is built by a call, `L.cmd("textbf", nil, "a")` or `L.itemize{ "a", "b" }`.  The
arguments of a call are a list, nil included: `select("#", ...)` counts every one of them.
A table is its array part and the fields the constructors look for (`Table`).

| source | here |
| :-- | :-- |
| `check_holes`, `pack` | `checkHoles`, `pack` |
| `split_spec` | `splitSpec` |
| `L.cmd`, `L.env`, `L.item`, `L.e`, … | `L.cmd`, `L.env`, `L.item`, `L.e`, … |
| `error(…, 2)`, `error(…, 3)` | the constructors of `BuildError` |

A hole among the arguments is refused in two places: by `pack`, when the node is built,
and by `flatten`, when it is rendered.  The helpers that put their arguments into one
table (`group1`, `L.href`, `L.multicolumn`) leave it to `flatten`, which only sees the
holes with something behind them (`raises_iff`).
-/
import Tmg.Latex.Children
import Tmg.Latex.Total

namespace Tmg.Latex

open Tmg Lib

/-! ## Errors -/

/-- The errors of the constructors. -/
inductive BuildError where
  | childNil (who : Bytes) (i : Nat)
  | titleRequired (cmd : Bytes)
  | envFirst
  | envSpec (tc : Bytes)
deriving DecidableEq, Repr

/-- The text of an error, behind the position of the call. -/
def BuildError.message : BuildError → Bytes
  | childNil who i => ascii "latex: " ++ who ++ ascii ": child #" ++ decimal i ++ ascii " is nil"
  | titleRequired cmd => ascii "latex: " ++ cmd ++ ascii ": title is required"
  | envFirst =>
      ascii "latex: env: the first entry of the table must be the environment name"
  | envSpec tc => ascii "latex: env: spec must be a string or a table, got " ++ tc

/-! ## Options, arguments and tables -/

/-- A table of options: its array part, a hole for nil, and its string keys. -/
structure OptTab where
  arr : List (Option Bytes)
  fields : List (Bytes × OptVal)
deriving DecidableEq, Repr

/-- A value given as options. -/
inductive OptSpec where
  | nil
  | off
  | str (s : Bytes)
  | tab (t : OptTab)
deriving DecidableEq, Repr

/-- A value given as mandatory arguments: absent, a table by its array part, or any other. -/
inductive ArgSpec where
  | nil
  | tab (args : List Val)
  | val (x : Val)

def ArgSpec.isNil : ArgSpec → Bool
  | nil => true
  | _ => false

/-- `ipairs` -/
def ipairs : List (Option Bytes) → List Bytes
  | some v :: vs => v :: ipairs vs
  | _ => []

/-- The options as `fmt_opts` reads them. -/
def OptSpec.opts : OptSpec → Opts
  | nil => .none
  | off => .none
  | str s => .str s
  | tab t => .tab (ipairs t.arr) t.fields

/-- `if args ~= nil and type(args) ~= "table" then args = { args } end` -/
def ArgSpec.args : ArgSpec → List Val
  | nil => []
  | tab args => args
  | val x => [x]

/-- The keys of a table of options, if none is `opts` or `args`. -/
def OptTab.Unreserved (t : OptTab) : Prop :=
  ∀ f ∈ t.fields, f.1 ≠ ascii "opts" ∧ f.1 ≠ ascii "args"

/-- A table given as `spec`: the fields `opts` and `args`, and the rest of it. -/
structure SpecTab where
  opts : OptSpec
  args : ArgSpec
  rest : OptTab
  unreserved : rest.Unreserved

/-- The second argument of `L.env`. -/
inductive Spec where
  | nil
  | str (s : Bytes)
  | tab (t : SpecTab)
  | other (tc : Bytes)

/-- `{ opts = opts, args = args }` -/
def Spec.fields (opts : OptSpec) (args : ArgSpec) : Spec :=
  .tab ⟨opts, args, ⟨[], []⟩, nofun⟩

/-- A plain table given to a constructor. -/
structure Table where
  term : Val
  opts : OptSpec
  args : ArgSpec
  items : List Val

/-- An argument: a plain table, or any value. -/
inductive Arg where
  | table (t : Table)
  | val (x : Val)

/-- `is_list(x)` -/
def Arg.table? : Arg → Option Table
  | table t => some t
  | val (.list term items) => some ⟨term, .nil, .nil, items⟩
  | val _ => none

/-- The argument as a child. -/
def Arg.child : Arg → Val
  | table t => .list t.term t.items
  | val x => x

/-! ## Holes -/

/-- `check_holes`, from the index `i` on. -/
def checkHoles (who : Bytes) : Nat → List Val → Except BuildError Unit
  | _, [] => .ok ()
  | i, c :: cs => if c.isNil then .error (.childNil who i) else checkHoles who (i + 1) cs

/-- `pack` -/
def pack (who : Bytes) (args : List Val) : Except BuildError (List Val) := do
  checkHoles who 1 args
  return args

/-- What `split_spec` makes of a table without `opts`: its options are the rest of it. -/
def OptTab.copied (t : OptTab) : OptSpec :=
  if t.arr.all Option.isNone && t.fields.isEmpty then .nil else .tab t

/-- `split_spec` -/
def splitSpec : Spec → Except BuildError (OptSpec × ArgSpec)
  | .nil => .ok (.nil, .nil)
  | .str s => .ok (.str s, .nil)
  | .other tc => .error (.envSpec tc)
  | .tab t => .ok (if t.opts = .nil then t.rest.copied else t.opts, t.args)

/-- The first argument of `L.env`: the name, or a table that begins with it. -/
inductive EnvHead where
  | name (s : Bytes)
  | table (t : Table)

/-- The title of a section: a table with its fields, or any other value. -/
inductive Title where
  | table (items : List Val) (label short : Option Bytes) (star : Bool)
  | val (x : Val)

def Title.isNil : Title → Bool
  | val x => x.isNil
  | _ => false

/-! ## The constructors -/

namespace L

def raw (s : Bytes) : Val := .raw s false

def frag (args : List Val) : Except BuildError Val := do
  let t ← pack (ascii "frag") args
  return .frag t

def par (args : List Val) : Except BuildError Val := do
  let t ← pack (ascii "par") args
  return .par t

def cmd (name : Bytes) (opts : OptSpec) (args : List Val) : Except BuildError Val := do
  let t ← pack (ascii "cmd " ++ name) args
  return .cmd name opts.opts t

def env (head : EnvHead) (spec : Spec) (args : List Val) : Except BuildError Val :=
  match head with
  | .name name => do
      let t ← pack (ascii "env " ++ name) args
      let (opts, args) ← splitSpec spec
      return .env name opts.opts args.args t
  | .table cfg =>
      match cfg.items with
      | .str name :: rest => do
          let t := Val.trim rest
          checkHoles (ascii "env " ++ name) 1 t
          let (opts, args) ← splitSpec (.fields cfg.opts cfg.args)
          return .env name opts.opts args.args t
      | _ => .error .envFirst

def item (args : List Val) : Except BuildError Val :=
  match args with
  | [.list term items] =>
      if term.isNil then do
        let t ← pack (ascii "item") args
        return .item .nil t
      else do
        let t := Val.trim items
        checkHoles (ascii "item") 1 t
        return .item term t
  | args => do
      let t ← pack (ascii "item") args
      return .item .nil t

/-- `L.e[name]` -/
def e (name : Bytes) (args : List Arg) : Except BuildError Val :=
  match args with
  | [first] =>
      match first.table? with
      | some t =>
          if t.opts ≠ .nil ∨ t.args.isNil = false then
            env (.name name) (.fields t.opts t.args) (Val.trim t.items)
          else env (.name name) .nil [first.child]
      | none => env (.name name) .nil [first.child]
  | args => env (.name name) .nil (args.map Arg.child)

/-- `group1(name)`: all arguments are the children of one group. -/
def group1 (name : Bytes) (args : List Val) : Except BuildError Val :=
  cmd name .nil [.list .nil args]

def bf := group1 (ascii "textbf")
def it := group1 (ascii "textit")
def tt := group1 (ascii "texttt")
def emph := group1 (ascii "emph")
def sc := group1 (ascii "textsc")
def underline := group1 (ascii "underline")
def footnote := group1 (ascii "footnote")

def href (u : Bytes) (args : List Val) : Except BuildError Val :=
  cmd (ascii "href") .nil [raw u, .list .nil args]

def multicolumn (ncols spec : Bytes) (args : List Val) : Except BuildError Val :=
  cmd (ascii "multicolumn") .nil [.str ncols, raw spec, .list .nil args]

/-- `sectioning(cmdname)` -/
def sectioning (cmdname : Bytes) (title : Title) (args : List Val) : Except BuildError Val :=
  if title.isNil then .error (.titleRequired cmdname)
  else do
    let t ← pack cmdname args
    return match title with
      | .table items label short star => .sec cmdname star short label items t
      | .val x => .sec cmdname false none none [x] t

/-- `listkind(env)` -/
def listkind (env : Bytes) (cfg : Table) : Except BuildError Val := do
  let t := Val.trim cfg.items
  checkHoles env 1 t
  return .listenv env cfg.opts.opts t

end L

/-! ## A hole among the arguments -/

/-- A constructor that takes children as arguments. -/
inductive Ctor where
  | cmd (name : Bytes) (opts : OptSpec)
  | par
  | frag
  | env (name : Bytes) (spec : Spec)
  | item
  | sec (cmdname : Bytes) (title : Title) (given : title.isNil = false)
  | bf
  | it
  | tt
  | emph
  | sc
  | underline
  | footnote
  | href (u : Bytes)
  | multicolumn (ncols spec : Bytes)

/-- The call with the children `args`. -/
def Ctor.build : Ctor → List Val → Except BuildError Val
  | cmd name opts => L.cmd name opts
  | par => L.par
  | frag => L.frag
  | env name spec => L.env (.name name) spec
  | item => L.item
  | sec cmdname title _ => L.sectioning cmdname title
  | bf => L.bf
  | it => L.it
  | tt => L.tt
  | emph => L.emph
  | sc => L.sc
  | underline => L.underline
  | footnote => L.footnote
  | href u => L.href u
  | multicolumn ncols spec => L.multicolumn ncols spec

/-- The constructor gives its arguments to `pack`, and not in a table of their own. -/
def Ctor.packs : Ctor → Bool
  | cmd .. | par | frag | env .. | item | sec .. => true
  | _ => false

/-- A rendering of children that writes text and raw LaTeX as `render_one` does. -/
structure WritesText (one : Val → Ctx → Except LatexError (Bytes × Bool)) : Prop where
  str : ∀ s ctx, one (.str s) ctx = .ok (escape s, false)
  raw : ∀ s b ctx, one (.raw s b) ctx = .ok (s, b)

/-- Building the node raises the error of a hole, or rendering it does, whatever the
children are rendered to. -/
def Raises : Except BuildError Val → Prop
  | .error err => ∃ who i, err = .childNil who i
  | .ok x => ∀ one, WritesText one → ∀ ctx, ∃ who i, renderStep one x ctx = .error (.childNil who i)

theorem writesText_renderNode : WritesText renderNode where
  str s ctx := renderNode_eq (.str s) ctx
  raw s b ctx := renderNode_eq (.raw s b) ctx

theorem checkHoles_of_hole (who : Bytes) :
    ∀ (cs : List Val) (i : Nat), cs.any Val.isNil = true →
      ∃ k, checkHoles who i cs = .error (.childNil who k)
  | c :: cs, i, h => by
      rw [checkHoles]
      cases hc : c.isNil with
      | true => exact ⟨i, rfl⟩
      | false =>
          rw [List.any_cons, hc] at h
          exact checkHoles_of_hole who cs (i + 1) h

theorem checkHoles_of_full (who : Bytes) :
    ∀ (cs : List Val) (i : Nat), cs.any Val.isNil = false → checkHoles who i cs = .ok ()
  | [], _, _ => rfl
  | c :: cs, i, h => by
      rw [List.any_cons, Bool.or_eq_false_iff] at h
      rw [checkHoles, h.1]
      exact checkHoles_of_full who cs (i + 1) h.2

theorem pack_of_hole (who : Bytes) {cs : List Val} (h : cs.any Val.isNil = true) :
    ∃ k, pack who cs = .error (.childNil who k) := by
  obtain ⟨k, hk⟩ := checkHoles_of_hole who cs 1 h
  exact ⟨k, by rw [pack, hk]; rfl⟩

theorem pack_of_full (who : Bytes) {cs : List Val} (h : cs.any Val.isNil = false) :
    pack who cs = .ok cs := by
  rw [pack, checkHoles_of_full who cs 1 h]
  rfl

theorem raises_of_pack {who : Bytes} {args : List Val} (h : args.any Val.isNil = true)
    {f : List Val → Except BuildError Val} : Raises (pack who args >>= f) := by
  obtain ⟨i, hi⟩ := pack_of_hole who h
  rw [hi]
  exact ⟨who, i, rfl⟩

/-- A constructor that packs refuses every nil. -/
theorem raises_of_packs {k : Ctor} (hk : k.packs = true) {args : List Val}
    (h : args.any Val.isNil = true) : Raises (k.build args) := by
  cases k with
  | cmd name opts => exact raises_of_pack h
  | par => exact raises_of_pack h
  | frag => exact raises_of_pack h
  | env name spec => exact raises_of_pack h
  | item =>
      change Raises (L.item args)
      unfold L.item
      split
      · next term items => exact absurd h Bool.false_ne_true
      · exact raises_of_pack h
  | sec cmdname title given =>
      change Raises (L.sectioning cmdname title args)
      rw [L.sectioning, given]
      exact raises_of_pack h
  | _ => exact absurd hk Bool.false_ne_true

/-- A string or raw LaTeX, as the helpers put them in front of their group. -/
inductive Text : Val → Prop
  | str (s : Bytes) : Text (.str s)
  | raw (s : Bytes) : Text (.raw s false)

theorem inlineVal_of_text {one : Val → Ctx → Except LatexError (Bytes × Bool)}
    (hone : WritesText one) {c : Val} (hc : Text c) (ctx : Ctx) (who : Bytes) :
    ∃ s, inlineVal one c ctx who = .ok s := by
  cases hc with
  | str s => exact ⟨_, (inlineVal_eq_ok_iff one).mpr ⟨rfl, _, .cons (hone.str s ctx) .nil, rfl⟩⟩
  | raw s => exact ⟨_, (inlineVal_eq_ok_iff one).mpr ⟨rfl, _, .cons (hone.raw s false ctx) .nil, rfl⟩⟩

/-- A group with a hole is not rendered. -/
theorem inlineVal_of_hole (one : Val → Ctx → Except LatexError (Bytes × Bool)) {args : List Val}
    (h : Val.fullList args = false) (ctx : Ctx) (who : Bytes) :
    ∃ i, inlineVal one (.list .nil args) ctx who = .error (.childNil who i) := by
  obtain ⟨i, hi⟩ := flatten_of_hole who [.list .nil args]
    (by rw [fullList_singleton, Val.full, h])
  exact ⟨i, by rw [inlineVal, renderChildren, hi]; rfl⟩

/-- A rendering of children that succeeds on all of them. -/
def textOnly (c : Val) (_ : Ctx) : Except LatexError (Bytes × Bool) :=
  match c with
  | .str s => .ok (escape s, false)
  | .raw s b => .ok (s, b)
  | _ => .ok ([], false)

theorem writesText_textOnly : WritesText textOnly := ⟨fun _ _ => rfl, fun _ _ _ => rfl⟩

/-- A group without a hole is rendered if its children are. -/
theorem inlineVal_textOnly {args : List Val} (h : Val.fullList args = true) (ctx : Ctx)
    (who : Bytes) : ∃ s, inlineVal textOnly (.list .nil args) ctx who = .ok s := by
  have hall : ∀ cs : List Val, ∃ pieces,
      List.Forall₂ (fun c p => textOnly c ctx = .ok p) cs pieces := by
    intro cs
    induction cs with
    | nil => exact ⟨[], .nil⟩
    | cons c cs ih =>
        obtain ⟨p, hp⟩ : ∃ p, textOnly c ctx = .ok p := by cases c <;> exact ⟨_, rfl⟩
        obtain ⟨ps, hps⟩ := ih
        exact ⟨p :: ps, .cons hp hps⟩
  obtain ⟨pieces, hpieces⟩ := hall (Val.leavesList args)
  exact ⟨_, (inlineVal_eq_ok_iff textOnly).mpr ⟨by rw [Val.full, h], pieces, hpieces, rfl⟩⟩

/-- Behind texts, the last argument decides. -/
theorem renderArgs_texts {one : Val → Ctx → Except LatexError (Bytes × Bool)}
    (hone : WritesText one) (ctx : Ctx) (who : Bytes) {x : Val} (hx : x.isNil = false) :
    ∀ texts : List Val, (∀ c ∈ texts, Text c) → ∃ a,
      renderArgs one ctx who (texts ++ [x]) = do
        let s ← inlineVal one x ctx who
        return a ++ braced s
  | [], _ => ⟨[], by
      rw [List.nil_append, renderArgs, hx, if_neg Bool.false_ne_true]
      cases inlineVal one x ctx who with
      | error err => rfl
      | ok s => exact congrArg Except.ok (List.append_nil _)⟩
  | c :: texts, h => by
      rw [List.forall_mem_cons] at h
      obtain ⟨s, hs⟩ := inlineVal_of_text hone h.1 ctx who
      obtain ⟨a, ha⟩ := renderArgs_texts hone ctx who hx texts h.2
      have hc : c.isNil = false := by cases h.1 <;> rfl
      refine ⟨braced s ++ a, ?_⟩
      rw [List.cons_append, renderArgs, hc, if_neg Bool.false_ne_true, hs, ha]
      cases inlineVal one x ctx who with
      | error err => rfl
      | ok t => exact congrArg Except.ok (List.append_assoc ..).symm

/-- A command that puts its children into one group raises exactly for the holes that
`flatten` sees. -/
theorem raises_cmd_iff (name : Bytes) (opts : Opts) (texts : List Val) (htexts : ∀ c ∈ texts, Text c)
    (args : List Val) :
    Raises (.ok (.cmd name opts (texts ++ [.list .nil args]))) ↔ Val.fullList args = false := by
  have hargs := fun {one} (hone : WritesText one) (ctx : Ctx) =>
    renderArgs_texts hone ctx name (x := .list .nil args) rfl texts htexts
  constructor
  · intro hraises
    rw [← Bool.not_eq_true]
    intro hfull
    obtain ⟨s, hs⟩ := inlineVal_textOnly hfull ⟨true, 0⟩ name
    obtain ⟨who, i, herr⟩ := hraises textOnly writesText_textOnly ⟨true, 0⟩
    obtain ⟨a, ha⟩ := hargs writesText_textOnly ⟨true, 0⟩
    rw [hs] at ha
    change R.cmd textOnly name opts _ _ = _ at herr
    rw [R.cmd, ha] at herr
    exact nomatch herr
  · intro hhole one hone ctx
    obtain ⟨a, ha⟩ := hargs hone ctx
    obtain ⟨i, hi⟩ := inlineVal_of_hole one hhole ctx name
    refine ⟨name, i, ?_⟩
    change R.cmd one name opts _ _ = _
    rw [R.cmd, ha, hi]
    rfl

/-- A nil raises if the constructor packs its arguments, and otherwise if `flatten` sees it. -/
theorem raises_build_iff (k : Ctor) (args : List Val) (h : args.any Val.isNil = true) :
    Raises (k.build args) ↔ k.packs = true ∨ Val.fullList args = false := by
  have hgroup : ∀ name, Raises (L.group1 name args) ↔ Val.fullList args = false := fun name =>
    raises_cmd_iff name .none [] (fun _ hc => absurd hc List.not_mem_nil) args
  cases hk : k.packs with
  | true => exact iff_of_true (raises_of_packs hk h) (Or.inl rfl)
  | false =>
      simp only [Bool.false_eq_true, false_or]
      cases k with
      | bf => exact hgroup _
      | it => exact hgroup _
      | tt => exact hgroup _
      | emph => exact hgroup _
      | sc => exact hgroup _
      | underline => exact hgroup _
      | footnote => exact hgroup _
      | href u =>
          exact raises_cmd_iff _ .none [.raw u false]
            (List.forall_mem_singleton.mpr (.raw u)) args
      | multicolumn ncols spec =>
          exact raises_cmd_iff _ .none [.str ncols, .raw spec false]
            (List.forall_mem_cons.mpr ⟨.str ncols, List.forall_mem_singleton.mpr (.raw spec)⟩) args
      | _ => exact absurd hk.symm Bool.false_ne_true

/-! ### What is left out otherwise -/

theorem inlineVal_trim (one : Val → Ctx → Except LatexError (Bytes × Bool)) {args : List Val}
    (h : Val.fullList args = true) (ctx : Ctx) (who : Bytes) :
    inlineVal one (.list .nil args) ctx who = inlineVal one (.list .nil (Val.trim args)) ctx who := by
  have hflat : ∀ cs : List Val, Val.fullList cs = true →
      flatten who [.list .nil cs] = .ok (Val.leavesList cs) := fun cs hcs => by
    rw [flatten_of_full who (by rw [fullList_singleton, Val.full, hcs]), leavesList_singleton,
      Val.leaves]
  rw [inlineVal, inlineVal, renderChildren, renderChildren, hflat args h,
    hflat _ (Val.fullList_trim h), Val.leavesList_trim]

theorem renderArgs_append_congr (one : Val → Ctx → Except LatexError (Bytes × Bool)) (ctx : Ctx)
    (who : Bytes) {as bs : List Val} (h : renderArgs one ctx who as = renderArgs one ctx who bs) :
    ∀ cs : List Val, renderArgs one ctx who (cs ++ as) = renderArgs one ctx who (cs ++ bs)
  | [] => h
  | c :: cs => by
      have ih := renderArgs_append_congr one ctx who h cs
      rw [List.cons_append, List.cons_append, renderArgs, renderArgs, ih]

theorem renderNode_cmd_trim (name : Bytes) (opts : Opts) (texts : List Val) {args : List Val}
    (h : Val.fullList args = true) (ctx : Ctx) :
    renderNode (.cmd name opts (texts ++ [.list .nil args])) ctx
      = renderNode (.cmd name opts (texts ++ [.list .nil (Val.trim args)])) ctx := by
  rw [renderNode_eq, renderNode_eq]
  change R.cmd renderNode name opts _ ctx = R.cmd renderNode name opts _ ctx
  have hlast : renderArgs renderNode ctx name [.list .nil args]
      = renderArgs renderNode ctx name [.list .nil (Val.trim args)] := by
    rw [renderArgs, renderArgs, inlineVal_trim renderNode h]
    rfl
  rw [R.cmd, R.cmd, renderArgs_append_congr renderNode ctx name hlast texts]

/-- A constructor that raises nothing for its nils renders as if they were not there. -/
theorem renderNode_build_trim (k : Ctor) {args : List Val} (hk : k.packs = false)
    (h : Val.fullList args = true) :
    ∃ x y, k.build args = .ok x ∧ k.build (Val.trim args) = .ok y ∧
      ∀ ctx, renderNode x ctx = renderNode y ctx := by
  have hgroup : ∀ name, ∃ x y, L.group1 name args = .ok x ∧ L.group1 name (Val.trim args) = .ok y ∧
      ∀ ctx, renderNode x ctx = renderNode y ctx := fun name =>
    ⟨_, _, rfl, rfl, renderNode_cmd_trim name .none [] h⟩
  cases k with
  | bf => exact hgroup _
  | it => exact hgroup _
  | tt => exact hgroup _
  | emph => exact hgroup _
  | sc => exact hgroup _
  | underline => exact hgroup _
  | footnote => exact hgroup _
  | href u => exact ⟨_, _, rfl, rfl, renderNode_cmd_trim _ .none [.raw u false] h⟩
  | multicolumn ncols spec =>
      exact ⟨_, _, rfl, rfl, renderNode_cmd_trim _ .none [.str ncols, .raw spec false] h⟩
  | _ => exact absurd hk.symm Bool.false_ne_true

/-! ### The main result -/

/-- What raises is not rendered by `render_one` either. -/
theorem Raises.renderNode {x : Val} (h : Raises (.ok x)) (ctx : Ctx) :
    ∃ who i, renderNode x ctx = .error (.childNil who i) := by
  rw [renderNode_eq]
  exact h Tmg.Latex.renderNode writesText_renderNode ctx

/-- **Which nil among the arguments is an error**: every one, if the constructor packs its
arguments, and otherwise one with something behind it, or a hole in a list among them.  There
`render_one` raises it; the others it leaves out, as if they had not been given. -/
theorem raises_iff (k : Ctor) (args : List Val) (h : args.any Val.isNil = true) :
    (Raises (k.build args) ↔ k.packs = true ∨ Val.fullList args = false) ∧
      (∀ x, k.build args = .ok x → Val.fullList args = false →
        ∀ ctx, ∃ who i, renderNode x ctx = .error (.childNil who i)) ∧
      (k.packs = false → Val.fullList args = true →
        ∃ x y, k.build args = .ok x ∧ k.build (Val.trim args) = .ok y ∧
          ∀ ctx, renderNode x ctx = renderNode y ctx) := by
  have hiff := raises_build_iff k args h
  refine ⟨hiff, fun x hx hhole ctx => ?_, renderNode_build_trim k⟩
  have hraises := hiff.mpr (.inr hhole)
  rw [hx] at hraises
  exact hraises.renderNode ctx

/-- A nil at the end is left out of a group. -/
theorem bf_drops_nil :
    ∃ x, L.bf [.str (ascii "a"), .nil] = .ok x ∧
      render x true = .ok (ascii "\\textbf" ++ braced (ascii "a")) :=
  ⟨_, rfl, by decide⟩

/-- One that is packed is not. -/
theorem raises_par_nil : Raises (Ctor.par.build [.str (ascii "a"), .nil]) :=
  (raises_iff .par [.str (ascii "a"), .nil] (by decide)).1.mpr (Or.inl rfl)

end Tmg.Latex
