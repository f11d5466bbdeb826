/-
# `Tmg.RenderFile` — `tmg_render`, from the template to the output file

`tmg_render` expands the template (`Tmg.Expand`) and writes the text through C stdio.
Of the five things that can go wrong it looks at two:

| call | what it can do | looked at |
| :-- | :-- | :-- |
| `tmg_expand` | fail, in one of three ways | yes |
| `fopen(out_path, "w")` | fail | yes |
| `fputs(result, out)` | take a part of the text, return `EOF` | no |
| `fclose(out)` | write a part of what is buffered, return `EOF` | no |

so a full disk is reported as success: `render_reports_iff`.  The file system is a map
from paths to contents, and how far each call gets is an input (`FileCalls`).  What the
template's own code does to files is not modelled.
-/
import Tmg.Expand
import Tmg.Lib.Stream
import Mathlib.Logic.Function.Basic

namespace Tmg

open Lib

variable {ν : Type*}

/-- The files, by path. -/
abbrev Files := CString → Option Bytes

/-- How the calls of one `tmg_render` end: whether the two files open, how far `fputs`
gets and how many bytes `fclose` writes. -/
structure FileCalls where
  opensIn : Bool
  opensOut : Bool
  fputs : Transfer
  fclose : Nat
deriving DecidableEq, Repr

/-- `fputs` and `fclose` of the text `s`, on a file that `fopen` has emptied: the two
return values are not `EOF`. -/
def FileCalls.WriteOk (calls : FileCalls) (s : Bytes) : Prop :=
  let put := Stream.fresh.put s calls.fputs
  put.2 = true ∧ (put.1.close calls.fclose).2 = true

instance (calls : FileCalls) (s : Bytes) : Decidable (calls.WriteOk s) :=
  inferInstanceAs (Decidable (_ ∧ _))

/-- What `tmg_expand` returns in a call of `tmg_render`. -/
def expansion (fmt : ν → Bytes) (load : Bytes → Except Bytes (Coroutine ν)) (sep : CString)
    (calls : FileCalls) (files : Files) (inPath : CString) : Except ExpandError Bytes :=
  tmgExpand fmt load sep (if calls.opensIn then files inPath else none)

/-- `tmg_render`: the return value and the files it leaves. -/
def tmgRender (fmt : ν → Bytes) (load : Bytes → Except Bytes (Coroutine ν)) (sep : CString)
    (calls : FileCalls) (files : Files) (inPath outPath : CString) : Bool × Files :=
  match expansion fmt load sep calls files inPath with
  | .error _ => (false, files)
  | .ok result =>
      if calls.opensOut then
        let out := (Stream.fresh.put (cstr result) calls.fputs).1
        let content := (out.close calls.fclose).1
        (true, Function.update files outPath (some content))
      else (false, files)

/-! ## The text reaches `fputs` whole -/

/-- The strings that were appended hold no zero byte, as each was cut at its first one. -/
theorem zero_notMem_pushed (fmt : ν → Bytes) (vals : List (LuaValue ν)) :
    (0 : Byte) ∉ pushed fmt vals := by
  have hcstr : ∀ s : Bytes, (0 : Byte) ∉ cstr s := by
    intro s h
    simpa using List.mem_takeWhile_imp h
  simp only [pushed, List.mem_flatten, List.mem_map]
  rintro ⟨_, ⟨s, -, rfl⟩, h⟩
  exact hcstr s h

/-- So the loop keeps zero bytes out of its output. -/
theorem zero_notMem_resumeLoop (fmt : ν → Bytes) :
    ∀ (co : Coroutine ν) (out s : Bytes), (0 : Byte) ∉ out → resumeLoop fmt out co = .ok s →
      (0 : Byte) ∉ s
  | .returned, out, s, hout, h => by
      obtain rfl : out = s := Except.ok.inj h
      exact hout
  | .raised _, _, _, _, h => absurd h (by simp [resumeLoop])
  | .yielded vals rest, out, s, hout, h => by
      refine zero_notMem_resumeLoop fmt rest _ s ?_ h
      rw [foldl_pushValue, List.mem_append, not_or]
      exact ⟨hout, zero_notMem_pushed fmt vals⟩

/-- What `tmg_expand` returns is a C string. -/
theorem zero_notMem_tmgExpand {fmt : ν → Bytes} {load : Bytes → Except Bytes (Coroutine ν)}
    {sep : CString} {tpl : Option Bytes} {s : Bytes} (h : tmgExpand fmt load sep tpl = .ok s) :
    (0 : Byte) ∉ s := by
  cases tpl with
  | none => exact absurd h (by simp [tmgExpand])
  | some tpl =>
      simp only [tmgExpand] at h
      split at h
      · exact absurd h (by simp)
      · split at h
        · exact absurd h (by simp)
        · next hrun =>
            obtain rfl := Except.ok.inj h
            exact zero_notMem_resumeLoop fmt _ [] _ List.not_mem_nil hrun

/-! ## What the return value says about the file -/

/-- `tmg_render` returns true only if the output file then holds what `tmg_expand`
produced, and leaves the output file as it was when `tmg_expand` fails. -/
def RenderReports (fmt : ν → Bytes) (load : Bytes → Except Bytes (Coroutine ν)) (sep : CString)
    (calls : FileCalls) (files : Files) (inPath outPath : CString) : Prop :=
  let expanded := expansion fmt load sep calls files inPath
  let ret := tmgRender fmt load sep calls files inPath outPath
  (ret.1 = true → ∃ s, expanded = .ok s ∧ ret.2 outPath = some s) ∧
    ∀ e, expanded = .error e → ret.2 outPath = files outPath

/-- **The return value can be trusted exactly when, in case the template expands and the
output file opens, `fputs` and `fclose` both succeed.** -/
theorem render_reports_iff (fmt : ν → Bytes) (load : Bytes → Except Bytes (Coroutine ν))
    (sep : CString) (calls : FileCalls) (files : Files) (inPath outPath : CString) :
    RenderReports fmt load sep calls files inPath outPath ↔
      ∀ s, expansion fmt load sep calls files inPath = .ok s → calls.opensOut = true →
        calls.WriteOk s := by
  unfold RenderReports tmgRender
  cases hexp : expansion fmt load sep calls files inPath with
  | error e => simp
  | ok s =>
      have hnul : cstr s = s := cstr_eq_self_iff.mpr (zero_notMem_tmgExpand hexp)
      have hwrite := Stream.close_put_eq_iff s calls.fputs calls.fclose
      cases hopen : calls.opensOut with
      | false => simp
      | true => simp [hnul, FileCalls.WriteOk, hwrite]

/-- The file `in` holds the template `hello`. -/
def helloFiles : Files := fun path =>
  if path.bytes = ascii "in" then some (ascii "hello") else none

/-- A disk with room for three bytes: `fputs` fills its buffer, `fclose` cannot empty it. -/
def fullDisk : FileCalls := { opensIn := true, opensOut := true, fputs := ⟨5, 0⟩, fclose := 3 }

/-- On that disk `hel` is written, and the return value is true. -/
theorem render_reports_lost :
    let load := fun _ => .ok (.yielded [.str (ascii "hello")] .returned)
    let delim := CString.single 37 (by decide)
    let outPath := ⟨ascii "out", by decide⟩
    let ret := tmgRender digit load delim fullDisk helloFiles ⟨ascii "in", by decide⟩ outPath
    ret.1 = true ∧ ret.2 outPath = some (ascii "hel") ∧
      ¬ RenderReports digit load delim fullDisk helloFiles ⟨ascii "in", by decide⟩ outPath := by
  intro load delim outPath ret
  have htrue : ret.1 = true := by decide
  have hfile : ret.2 outPath = some (ascii "hel") := by decide
  refine ⟨htrue, hfile, ?_⟩
  rintro ⟨hreported, -⟩
  obtain ⟨s, hs, hout⟩ := hreported htrue
  have hexp : expansion digit load delim fullDisk helloFiles ⟨ascii "in", by decide⟩
      = .ok (ascii "hello") := rfl
  obtain rfl : ascii "hello" = s := Except.ok.inj (hexp.symm.trans hs)
  exact absurd (hfile.symm.trans hout) (by decide)

end Tmg
