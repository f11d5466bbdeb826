/-
# `Tmg.Latex.Output` — `L.write` and `L.print`

A node leaves `latex.lua` in two ways.

`L.write(x, path)` renders it and writes the text and a newline to a file.  Of the calls that can fail
it looks at one:

| call | what it can do | looked at |
| :-- | :-- | :-- |
| `L.render` | raise an error, before the file is opened | yes |
| `io.open(path, "w")` | fail | yes |
| `f:write(s, "\n")` | take a part of the two texts, return nil | no |
| `f:close()` | write a part of what is buffered, return nil | no |

so `true` is the answer on a full disk too: `write_reports_iff`.

`L.print(...)` in a template hands the text of each of its arguments to `tmg.print`, which yields it.
The text appears in the expanded template as it is rendered exactly when there is no zero byte in it:
`print_expanded_iff`.
-/
import Tmg.RenderFile
import Tmg.Latex.Total

namespace Tmg.Latex

open Lib

/-! ## `L.write` -/

/-- How the calls of one `L.write` end: whether the file opens, how far `f:write` gets with the text and
with the newline, and how many bytes `f:close` writes. -/
structure WriteCalls where
  opens : Bool
  text : Transfer
  newline : Transfer
  close : Nat
deriving DecidableEq, Repr

/-- The two texts that `f:write` is given. -/
def WriteCalls.puts (calls : WriteCalls) (s : Bytes) : List (Bytes × Transfer) :=
  [(s, calls.text), (ascii "\n", calls.newline)]

/-- `f:write` and `f:close` do not return nil. -/
def WriteCalls.Ok (calls : WriteCalls) (s : Bytes) : Prop :=
  let written := Stream.fresh.putAll (calls.puts s)
  written.2 = true ∧ (written.1.close calls.close).2 = true

instance (calls : WriteCalls) (s : Bytes) : Decidable (calls.Ok s) :=
  inferInstanceAs (Decidable (_ ∧ _))

/-- `L.write(x, path, { indent = indent })`: `true` or nil, or the error that is raised, and the files
it leaves. -/
def L.write (x : Val) (path : CString) (indent : Bool) (calls : WriteCalls) (files : Files) :
    Except LatexError Bool × Files :=
  match render x indent with
  | .error e => (.error e, files)
  | .ok s =>
      if calls.opens then
        let f := (Stream.fresh.putAll (calls.puts s)).1
        (.ok true, Function.update files path (some (f.close calls.close).1))
      else (.ok false, files)

/-- `L.write` answers `true` only if the file holds the node and a newline, and where it does not it
leaves all files as they were. -/
def WriteReports (x : Val) (path : CString) (indent : Bool) (calls : WriteCalls) (files : Files) : Prop :=
  let ret := L.write x path indent calls files
  (ret.1 = .ok true → ∃ s, render x indent = .ok s ∧ ret.2 path = some (s ++ ascii "\n")) ∧
    (ret.1 ≠ .ok true → ret.2 = files)

/-- **The answer can be trusted exactly when, in case the node renders and the file opens, `f:write` and
`f:close` both succeed.** -/
theorem write_reports_iff (x : Val) (path : CString) (indent : Bool) (calls : WriteCalls) (files : Files) :
    WriteReports x path indent calls files ↔
      ∀ s, render x indent = .ok s → calls.opens = true → calls.Ok s := by
  unfold WriteReports L.write
  cases hrender : render x indent with
  | error e => simp
  | ok s =>
      have hwrite := Stream.close_putAll_eq_iff (calls.puts s) calls.close
      have htexts : ((calls.puts s).map Prod.fst).flatten = s ++ ascii "\n" := by
        simp [WriteCalls.puts]
      rw [htexts] at hwrite
      cases hopen : calls.opens with
      | false => simp
      | true => simp [WriteCalls.Ok, hwrite]

/-! ## `L.print` -/

variable {ν : Type*}

/-- `L.print` of some arguments in a template, with what the coroutine does behind it; `tostring` is
what `tmg.print` goes by for a value that is no string. -/
def L.print (tostring : LuaValue ν → Option (LuaValue ν)) : List Val → Coroutine ν → Coroutine ν
  | [], rest => rest
  | x :: xs, rest =>
      match render x true with
      | .error e => .raised e.message
      | .ok s => .yielded [printValue tostring (.str s)] (L.print tostring xs rest)

/-- The loop around `lua_resume` appends the texts of the arguments, or stops at the first one that
cannot be rendered. -/
theorem resumeLoop_print (fmt : ν → Bytes) (tostring : LuaValue ν → Option (LuaValue ν))
    (xs : List Val) (rest : Coroutine ν) (out : Bytes) :
    resumeLoop fmt out (L.print tostring xs rest) =
      match xs.mapM (render · true) with
      | .error e => .error e.message
      | .ok ss => resumeLoop fmt (out ++ (ss.map cstr).flatten) rest := by
  induction xs generalizing out with
  | nil =>
      show _ = resumeLoop fmt (out ++ []) rest
      rw [List.append_nil]
      rfl
  | cons x xs ih =>
      rw [L.print, List.mapM_cons]
      cases hx : render x true with
      | error e => rfl
      | ok s =>
          have hpush : pushValue fmt out (printValue tostring (.str s)) = out ++ cstr s :=
            pushValue_printValue fmt (v := .str s) (fun h => absurd h (Option.some_ne_none s)) out
          show resumeLoop fmt (pushValue fmt out (printValue tostring (.str s)))
            (L.print tostring xs rest) = _
          rw [hpush, ih]
          cases hxs : xs.mapM (render · true) with
          | error e => rfl
          | ok ss =>
              show resumeLoop fmt _ rest = resumeLoop fmt (out ++ (cstr s ++ (ss.map cstr).flatten)) rest
              rw [List.append_assoc]

/-- **What `L.print` is given appears in the expanded template as it is rendered**, wherever it is called,
exactly when nothing of it holds a zero byte. -/
theorem print_expanded_iff (fmt : ν → Bytes) (tostring : LuaValue ν → Option (LuaValue ν))
    {xs : List Val} {ss : List Bytes} (hss : xs.mapM (render · true) = .ok ss) {rest : Coroutine ν}
    (hrest : rest.EndsNormally) (out : Bytes) :
    resumeLoop fmt out (L.print tostring xs rest) = .ok (out ++ ss.flatten ++ pushed fmt rest.values) ↔
      ∀ s ∈ ss, (0 : Byte) ∉ s := by
  rw [resumeLoop_print, hss]
  dsimp only
  rw [resumeLoop_eq fmt rest _ hrest, Except.ok.injEq, List.append_left_inj, List.append_right_inj]
  exact flatten_map_cstr_iff ss

/-- `L.print(L.raw("\\alpha"), "_")`, and `tmg.print(7)` behind it. -/
theorem print_expanded_alpha :
    resumeLoop digit (ascii "a: ")
        (L.print (fun _ => none) [.raw (ascii "\\alpha") false, .str (ascii "_")]
          (.yielded [.num 7] .returned)) =
      .ok (ascii "a: " ++ [ascii "\\alpha", ascii "\\_"].flatten ++
        pushed digit (Coroutine.values (.yielded [.num 7] .returned))) :=
  have hrest : (Coroutine.yielded [.num (7 : Fin 10)] .returned).EndsNormally := trivial
  (print_expanded_iff digit (fun _ => none) rfl hrest (ascii "a: ")).mpr (by decide)

end Tmg.Latex
