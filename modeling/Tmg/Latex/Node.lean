/-
# `Tmg.Latex.Node` — the values `latex.lua` builds documents from

A child of a node is any Lua value (`Val`): a string, a number, a plain table, which is a
list and is flattened into its parent, a node, or a value that cannot be rendered.  A node
is one constructor for each kind of `R`, with the fields its renderer reads.

    L.cmd("textbf", nil, "a", L.m"x")     Val.cmd "textbf" .none [.str "a", .m "x"]
    { "a", { "b" } }                      Val.list .nil [.str "a", .list .nil [.str "b"]]

The array part of a table is a list of values in which a hole is `Val.nil`; what stands
behind the last value that is not nil does not count (`table.maxn`).  A field that may be
absent is an `Option`, and one that may hold any value is a `Val`, `Val.nil` if absent.
The string form of a number comes with the proof that it is made of the bytes numbers
are written with.
-/
import Tmg.Str

namespace Tmg.Latex

open Tmg

/-- The bytes of a number's string form, `inf` and `nan` included. -/
def numBytes : Bytes := ascii "0123456789.+-einfa"

/-- A number, by its `tostring`. -/
structure LuaNum where
  text : Bytes
  plain : ∀ c ∈ text, c ∈ numBytes
deriving DecidableEq

/-! ## Fields -/

/-- The value of an option: `true`, or any other value by its `tostring`. -/
inductive OptVal where
  | flag
  | val (text : Bytes)
deriving DecidableEq, Repr

/-- The `opts` of a node: absent, a raw string, or a table with its array part and its
string keys. -/
inductive Opts where
  | none
  | str (s : Bytes)
  | tab (arr : List Bytes) (fields : List (Bytes × OptVal))
deriving DecidableEq, Repr

/-- The `pos` of a float: absent, `false`, or a string. -/
inductive Pos where
  | default
  | off
  | str (s : Bytes)
deriving DecidableEq, Repr

/-- The `width` of a figure: a number, by its `%g`, or a string. -/
inductive Width where
  | num (g : LuaNum)
  | str (s : Bytes)
deriving DecidableEq

/-- An entry of `packages`: a name, or a table `{ name, option, ... }`. -/
inductive Pkg where
  | name (s : Bytes)
  | withOpts (s : Bytes) (opts : List Bytes)
deriving DecidableEq, Repr

/-- The `bib` of a document; `file` is a string or a list of strings. -/
structure Bib where
  style : Option Bytes
  file : List Bytes
deriving DecidableEq, Repr

/-- What `tabular_lines` reads. -/
structure TabCfg (ν : Type) where
  cols : Option Bytes
  header : ν
  rows : List ν
  booktabs : Bool
  resize : Bool

/-- What `float_lines` reads. -/
structure FloatCfg (ν : Type) where
  pos : Pos
  center : Bool
  caption : ν
  label : Option Bytes
  captionPos : Option Bytes

/-- What `R.figure` reads besides. -/
structure FigCfg where
  width : Option Width
  opts : Option Bytes
  file : Bytes
deriving DecidableEq

/-- What `R.document` reads besides its children. -/
structure DocCfg (ν : Type) where
  opts : Opts
  cls : Option Bytes
  packages : List Pkg
  preamble : List ν
  title : ν
  author : ν
  date : ν
  maketitle : Bool
  toc : Bool
  bib : Option Bib

/-! ## Values -/

/-- A Lua value among the children of a node. -/
inductive Val where
  | nil
  | bool (b : Bool)
  | num (n : LuaNum)
  | str (s : Bytes)
  /-- a value of another type, or a table with another metatable -/
  | other (tc : Bytes)
  /-- a plain table, with the `term` field that list items have -/
  | list (term : Val) (items : List Val)
  | raw (s : Bytes) (block : Bool)
  | frag (cs : List Val)
  | par (cs : List Val)
  | cmd (name : Bytes) (opts : Opts) (args : List Val)
  | env (name : Bytes) (opts : Opts) (args cs : List Val)
  | item (term : Val) (cs : List Val)
  | m (s : Bytes)
  | newcommand (name definition : Bytes) (nargs : Option Bytes)
  | sec (cmd : Bytes) (star : Bool) (short label : Option Bytes) (title cs : List Val)
  /-- `L.itemize`, `L.enumerate`, `L.description` -/
  | listenv (env : Bytes) (opts : Opts) (items : List Val)
  | mathenv (env : Bytes) (star : Bool) (label : Option Bytes) (lines : List Bytes)
  | verbatim (s : Bytes)
  | lstlisting (code : Bytes) (opts : Opts)
  | rule (cmd : Bytes)
  | tabular (t : TabCfg Val)
  | table (t : TabCfg Val) (fl : FloatCfg Val)
  | figure (fig : FigCfg) (fl : FloatCfg Val)
  | document (d : DocCfg Val) (cs : List Val)

namespace Val

/-- `x ~= nil and x ~= false` -/
def truthy : Val → Bool
  | nil => false
  | bool b => b
  | _ => true

def isNil : Val → Bool
  | nil => true
  | _ => false

/-- A hole, or nothing but holes. -/
def allNil (cs : List Val) : Bool := cs.all isNil

/-- The array part up to `table.maxn`. -/
def trim : List Val → List Val
  | [] => []
  | c :: cs => if allNil (c :: cs) then [] else c :: trim cs

mutual

/-- How deep nodes and lists are nested in a value. -/
def depth : Val → Nat
  | list term items => max (depth term) (depthList items) + 1
  | frag cs => depthList cs + 1
  | par cs => depthList cs + 1
  | cmd _ _ args => depthList args + 1
  | env _ _ args cs => max (depthList args) (depthList cs) + 1
  | item term cs => max (depth term) (depthList cs) + 1
  | sec _ _ _ _ title cs => max (depthList title) (depthList cs) + 1
  | listenv _ _ items => depthList items + 1
  | tabular ⟨_, header, rows, _, _⟩ => max (depth header) (depthList rows) + 1
  | table ⟨_, header, rows, _, _⟩ ⟨_, _, caption, _, _⟩ =>
      max (max (depth header) (depthList rows)) (depth caption) + 1
  | figure _ ⟨_, _, caption, _, _⟩ => depth caption + 1
  | document ⟨_, _, _, preamble, title, author, date, _, _, _⟩ cs =>
      max (max (depthList preamble) (depthList cs))
        (max (depth title) (max (depth author) (depth date))) + 1
  | _ => 1

def depthList : List Val → Nat
  | [] => 0
  | c :: cs => max (depth c) (depthList cs)

end

end Val

end Tmg.Latex
