/-
# `Tmg.Latex.CompileLog` — what `L.compile` comes back with

Behind the run of the engine `L.compile` returns `true`, or `false` and a text.  The text is made of
the engine's `.log` file, next to the one that was compiled: every line that begins with `!`, with the
two lines behind it.  Where there is no such line it is the end of the command's output.

| | |
| :-- | :-- |
| `gsub_extension` | `file:gsub("%.[^.]*$", "")` takes the last extension off |
| `gmatch_lines` | `text:gmatch("[^\n]+")` goes through the lines that are not empty |
| `compile_errors` | which lines of the `.log` file the text is made of |
| `compile_tail` | what the text is if there is none |

What the run of the engine leaves is given from outside (`CompileRun`).  `tostring` is done.
-/
import Tmg.Lua.Gsub
import Tmg.Lua.IoLib
import Tmg.Latex.Compile
import Tmg.Latex.Render
import Tmg.Lib.Collapse
import Tmg.Lib.Words

namespace Tmg.Latex

open Lib Lua

/-! ## The model -/

/-- `file:gsub("%.[^.]*$", "")` -/
def stripExtension (file : Bytes) : Bytes :=
  if 46 ∈ file then (file.rdropWhile (· ≠ 46)).dropLast else file

/-- The name of the engine's `.log` file. -/
def texLog (path : Bytes) : Bytes :=
  (dirFile path).1 ++ ascii "/" ++ stripExtension (dirFile path).2 ++ ascii ".log"

/-- What `os.execute` leaves: whether it succeeds, what the command wrote, and the files that can be
read then. -/
structure CompileRun where
  ok : Bool
  output : Option Bytes
  files : Bytes → Option Bytes

/-- The loop over the lines of the `.log` file, `errs` being empty before it. -/
def texErrors : List Bytes → List Bytes
  | [] => []
  | l :: ll =>
      if l.head? = some 33 then tableConcat [nl] ((l :: ll).take 3) :: texErrors ll else texErrors ll

/-- The last thirty lines of the output. -/
def outputTail (text : Bytes) : Bytes :=
  let lines := words (· = nl) text
  tableConcat [nl] (lines.drop (lines.length - 30))

/-- `L.compile` behind `os.execute`; `m` is `LUAL_BUFFERSIZE`. -/
def compileResult {m : Nat} (hm : 64 < m) (path : Bytes) (run : CompileRun) : Bool × Bytes :=
  if run.ok then (true, [])
  else
    let errs := ((run.files (texLog path)).map fun log => texErrors (ioLines hm log)).getD []
    if errs ≠ [] then (false, tableConcat [nl] errs)
    else (false, outputTail (run.output.getD []))

/-! ## The name of the log -/

/-- The pattern of the extension. -/
def extensionPattern : Bytes := ascii "%.[^.]*$"

theorem wellFormed_extension :
    WellFormed extensionPattern [.single (ascii "%.") .one, .single (ascii "[^.]") .star, .atEnd] :=
  ⟨.cons rfl (.cons rfl (.cons rfl .nil)), by decide, by decide⟩

theorem singleMatch_dot (c : Byte) : singleMatch c (ascii "%.") = decide (c = 46) := by
  have hclass : singleMatch c (ascii "%.") = decide (46 = c) := rfl
  rw [hclass]
  exact decide_eq_decide.mpr eq_comm

theorem singleMatch_noDot (c : Byte) : singleMatch c (ascii "[^.]") = decide (c ≠ 46) :=
  singleMatch_except (by decide) c

/-- The bytes that are no `.` run to the end if there is no `.` among them. -/
theorem allMatches_extension (src s : Bytes) :
    (allMatches src [.single (ascii "[^.]") .star, .atEnd] [] s).head? =
      if 46 ∉ s then some ([], []) else none := by
  have hends : ∀ t : Bytes, allMatches src [.atEnd] [] t = if t = [] then [([], [])] else [] := by
    intro t
    rw [allMatches, Item.ways]
    split
    · next ht =>
        rw [ht]
        rfl
    · rfl
  rw [allMatches, Item.ways, Rep.ways, List.flatMap_map, funext singleMatch_noDot]
  simp only [hends]
  split
  · next hdot =>
      have hrun : s.dropWhile (fun c => decide (c ≠ 46)) = [] := by
        rw [List.dropWhile_eq_nil_iff]
        exact fun c hc => decide_eq_true fun h => hdot (h ▸ hc)
      have hlongest := head?_reverse_runs (f := fun c => decide (c ≠ 46)) s
      rw [hrun] at hlongest
      obtain ⟨ts, hts⟩ := List.head?_eq_some_iff.mp hlongest
      rw [hts, List.flatMap_cons, if_pos rfl]
      rfl
  · next hdot =>
      rw [List.head?_eq_none_iff, List.flatMap_eq_nil_iff]
      intro t ht
      obtain ⟨w, hw, hplain⟩ := mem_runs.mp (List.mem_reverse.mp ht)
      refine if_neg fun hnil => hdot fun hmem => ?_
      rw [hw, hnil, List.append_nil] at hmem
      exact absurd rfl (of_decide_eq_true (hplain 46 hmem))

/-- There is a match at a `.` with no other one behind it. -/
theorem matchAt_extension (src : Bytes) (c : Byte) (s : Bytes) :
    matchAt src (c :: s) extensionPattern =
      .ok (if c = 46 ∧ 46 ∉ s then some ([], []) else none) := by
  rw [matchAt_finds wellFormed_extension, allMatches, Item.ways, Rep.ways, funext singleMatch_dot,
    List.head?_cons, Option.any_some, List.tail_cons]
  by_cases hc : c = 46
  · rw [if_pos (decide_eq_true hc), List.map_singleton, List.flatMap_singleton, allMatches_extension]
    exact congrArg Except.ok (if_congr (by simp [hc]) rfl rfl)
  · rw [if_neg (by simpa using hc), if_neg fun h => hc h.1]
    rfl

theorem stripExtension_self {s : Bytes} (h : 46 ∉ s) : stripExtension s = s := if_neg h

theorem stripExtension_mark {base ext : Bytes} (h : 46 ∉ ext) :
    stripExtension (base ++ 46 :: ext) = base := by
  have hplain : ∀ c ∈ ext, decide (c ≠ 46) = true := fun c hc => decide_eq_true fun h46 => h (h46 ▸ hc)
  have hsplit : base ++ 46 :: ext = (base ++ [46]) ++ ext := by simp
  rw [stripExtension, if_pos (by simp), hsplit, rdropWhile_append_right _ hplain,
    List.rdropWhile_concat_neg _ _ _ (by simp), List.dropLast_concat]

theorem exists_last_dot {s : Bytes} (h : 46 ∈ s) : ∃ base ext, s = base ++ 46 :: ext ∧ 46 ∉ ext := by
  obtain ⟨ext, base, hsplit, hext⟩ := List.eq_append_cons_of_mem (List.mem_reverse.mpr h)
  refine ⟨base.reverse, ext.reverse, ?_, by simpa using hext⟩
  rw [← List.reverse_reverse s, hsplit]
  simp

/-- A byte that is not the last `.` stays. -/
theorem stripExtension_cons {c : Byte} {s : Bytes} (h : ¬ (c = 46 ∧ 46 ∉ s)) :
    stripExtension (c :: s) = c :: stripExtension s := by
  by_cases hdot : 46 ∈ s
  · obtain ⟨base, ext, rfl, hext⟩ := exists_last_dot hdot
    rw [stripExtension_mark hext, ← List.cons_append, stripExtension_mark hext]
  · have hc : c ≠ 46 := fun hc => h ⟨hc, hdot⟩
    rw [stripExtension_self hdot, stripExtension_self (by simp [Ne.symm hc, hdot])]

theorem gsubLoop_extension {src : Bytes} {maxS : Int} (hmax : 0 < maxS) (file : Bytes) :
    (gsubLoop src extensionPattern (.str []) false maxS 0 file).map Prod.fst =
      .ok (stripExtension file) := by
  have hnil : ∀ n, gsubLoop src extensionPattern (.str []) false maxS n [] = .ok ([], n) := by
    intro n
    refine gsubLoop_nil ?_
    rw [matchAt_finds wellFormed_extension]
    rfl
  induction file with
  | nil =>
      rw [hnil]
      rfl
  | cons c s ih =>
      have hhere := matchAt_extension src c s
      by_cases hc : c = 46 ∧ 46 ∉ s
      · rw [if_pos hc] at hhere
        rw [gsubLoop_replaced hmax hhere (Nat.succ_pos _) rfl, hnil]
        have hstrip : stripExtension ([] ++ 46 :: s) = [] := stripExtension_mark hc.2
        rw [hc.1, ← List.nil_append (46 :: s), hstrip]
        rfl
      · rw [if_neg hc] at hhere
        rw [gsubLoop_kept hmax hhere, stripExtension_cons hc]
        obtain ⟨r, hr, hfst⟩ := map_eq_ok ih
        rw [hr]
        exact congrArg (fun t => Except.ok (c :: t)) hfst

/-- **The last extension is taken off.** -/
theorem gsub_extension (file : Bytes) :
    (gsub file extensionPattern (.str []) none).map Prod.fst = .ok (stripExtension file) := by
  have hanchor : anchored (cstr extensionPattern) = (false, extensionPattern) := by decide
  rw [gsub, hanchor, Option.getD_none]
  exact gsubLoop_extension (by omega) file

/-! ## The lines of the output -/

theorem singleMatch_noNl (c : Byte) : singleMatch c (ascii "[^\n]") = decide (c ≠ nl) :=
  singleMatch_except (by decide) c

theorem wellFormed_lines : WellFormed (ascii "[^\n]+") [.single (ascii "[^\n]") .plus] :=
  ⟨.cons rfl .nil, by decide, by decide⟩

/-- **A loop over the lines that are not empty.** -/
theorem gmatch_lines (text : Bytes) :
    gmatch text (ascii "[^\n]+") = .ok ((words (· = nl) text).map fun w => [.str w]) := by
  have hpat : cstr (ascii "[^\n]+") = ascii "[^\n]+" := by decide
  have hmatch : ∀ t, matchAt text t (ascii "[^\n]+") =
      .ok (if t.head?.any fun c => decide (c ≠ nl) then
        some (t.tail.dropWhile fun c => decide (c ≠ nl), []) else none) := by
    intro t
    rw [matchAt_plus wellFormed_lines, funext singleMatch_noNl]
  rw [gmatch, hpat, gmatchLoop_plus hmatch]
  simp

/-! ## The errors -/

/-- An error and the two lines behind it, for each line that begins with `!`. -/
def excerpts (lines : List Bytes) : List (List Bytes) :=
  ((List.range lines.length).filter fun i => (lines[i]?.bind List.head?) = some 33).map fun i =>
    (lines.drop i).take 3

theorem excerpts_cons (l : Bytes) (ll : List Bytes) :
    excerpts (l :: ll) =
      if l.head? = some 33 then (l :: ll).take 3 :: excerpts ll else excerpts ll := by
  have hrest : ((List.range (ll.length)).map Nat.succ).filter
      (fun i => decide (((l :: ll)[i]?.bind List.head?) = some 33)) =
        ((List.range ll.length).filter fun i => (ll[i]?.bind List.head?) = some 33).map Nat.succ := by
    rw [List.filter_map]
    rfl
  rw [excerpts, List.length_cons, List.range_succ_eq_map, List.filter_cons, hrest]
  by_cases hl : l.head? = some 33
  · rw [if_pos (by simpa using hl), if_pos hl, List.map_cons, List.map_map]
    rfl
  · rw [if_neg (by simpa using hl), if_neg hl, List.map_map]
    rfl

theorem texErrors_eq (lines : List Bytes) :
    texErrors lines = (excerpts lines).map (tableConcat [nl]) := by
  induction lines with
  | nil => rfl
  | cons l ll ih =>
      rw [texErrors, excerpts_cons, ih]
      split
      · rw [List.map_cons]
      · rfl

theorem excerpts_eq_nil {lines : List Bytes} :
    excerpts lines = [] ↔ ∀ l ∈ lines, l.head? ≠ some 33 := by
  induction lines with
  | nil => simp [excerpts]
  | cons l ll ih =>
      rw [excerpts_cons, List.forall_mem_cons, ← ih]
      by_cases hl : l.head? = some 33 <;> simp [hl]

theorem excerpt_lines {lines ex : List Bytes} (hex : ex ∈ excerpts lines) :
    ex ≠ [] ∧ ∀ l ∈ ex, l ∈ lines := by
  obtain ⟨i, hi, rfl⟩ := List.mem_map.mp hex
  have hlt : i < lines.length := List.mem_range.mp (List.mem_filter.mp hi).1
  constructor
  · rw [List.drop_eq_getElem_cons hlt]
    exact List.cons_ne_nil _ _
  · exact fun l hl => List.mem_of_mem_drop (List.mem_of_mem_take hl)

theorem tableConcat_eq (sep : Bytes) : ∀ ss : List Bytes, tableConcat sep ss = sep.intercalate ss
  | [] => rfl
  | [s] => by rw [tableConcat, List.intercalate_singleton]
  | s :: t :: ss => by
      rw [tableConcat, tableConcat_eq sep (t :: ss), List.intercalate_cons_cons, List.append_assoc]

/-- Texts of several lines each, put together. -/
theorem tableConcat_flatten (sep : Bytes) {exs : List (List Bytes)} (h : ∀ ex ∈ exs, ex ≠ []) :
    tableConcat sep (exs.map (tableConcat sep)) = tableConcat sep exs.flatten := by
  simp only [tableConcat_eq]
  have hpart : ∀ ls : List Bytes, sep.intercalate (ls ++ exs.map (tableConcat sep)) =
      sep.intercalate (ls ++ exs.flatten) := by
    induction exs with
    | nil => exact fun _ => rfl
    | cons ex exs ih =>
        intro ls
        rw [List.forall_mem_cons] at h
        rw [List.map_cons, tableConcat_eq, intercalate_append_intercalate sep h.1, ← List.append_assoc,
          ih h.2, List.flatten_cons, List.append_assoc]
  exact hpart []

theorem splitOn_tableConcat {ss : List Bytes} (hne : ss ≠ []) (h : ∀ s ∈ ss, nl ∉ s) :
    (tableConcat [nl] ss).splitOn nl = ss := by
  rw [tableConcat_eq]
  exact List.splitOn_intercalate nl h hne

/-- A run that failed: the engine's log, if it left one, and the output. -/
def failed (path : Bytes) (log : Option Bytes) (output : Bytes) : CompileRun :=
  ⟨false, some output, fun name => if name = texLog path then log else none⟩

theorem failed_files (path : Bytes) (log : Option Bytes) (output : Bytes) :
    (failed path log output).files (texLog path) = log := if_pos rfl

/-- **The text is made of the errors of the log**: of every line that begins with `!`, in order, and
the two lines behind it. -/
theorem compile_errors {m : Nat} (hm : 64 < m) {path : Bytes} {run : CompileRun} {log : Bytes}
    (hfail : run.ok = false) (hlog : run.files (texLog path) = some log)
    (herr : ∃ l ∈ ioLines hm log, l.head? = some 33) :
    (compileResult hm path run).1 = false ∧
      (compileResult hm path run).2.splitOn nl = (excerpts (ioLines hm log)).flatten := by
  have hex : excerpts (ioLines hm log) ≠ [] := by
    obtain ⟨l, hl, hmark⟩ := herr
    exact fun hnil => excerpts_eq_nil.mp hnil l hl hmark
  have hwhole : ∀ ex ∈ excerpts (ioLines hm log), ex ≠ [] := fun ex h => (excerpt_lines h).1
  have hflat : (excerpts (ioLines hm log)).flatten ≠ [] := by
    obtain ⟨ex, hmem⟩ := List.exists_mem_of_ne_nil _ hex
    exact fun hnil => hwhole ex hmem (List.flatten_eq_nil_iff.mp hnil ex hmem)
  have hresult : compileResult hm path run =
      (false, tableConcat [nl] (excerpts (ioLines hm log)).flatten) := by
    rw [compileResult, if_neg (by simp [hfail]), hlog, Option.map_some, Option.getD_some, texErrors_eq,
      if_pos (by simpa using hex), tableConcat_flatten _ hwhole]
  rw [hresult]
  refine ⟨rfl, splitOn_tableConcat hflat fun l hl => ?_⟩
  obtain ⟨ex, hmem, hl⟩ := List.mem_flatten.mp hl
  exact nl_not_mem_ioLines hm log l ((excerpt_lines hmem).2 l hl)

theorem compile_errors_late :
    let run := failed (ascii "doc/a.b.tex") (some (ascii "(a.b.tex\n! Missing $\nl.7")) []
    (compileResult (show 64 < 8192 by decide) (ascii "doc/a.b.tex") run).2.splitOn nl =
      [ascii "! Missing $", ascii "l.7"] := by
  intro run
  have hlines : ioLines (show 64 < 8192 by decide) (ascii "(a.b.tex\n! Missing $\nl.7") =
      [ascii "(a.b.tex", ascii "! Missing $", ascii "l.7"] := by
    rw [ioLines_eq _ (by decide)]
    decide
  have herr : ∃ l ∈ ioLines (show 64 < 8192 by decide) (ascii "(a.b.tex\n! Missing $\nl.7"),
      l.head? = some 33 := by
    rw [hlines]
    exact ⟨ascii "! Missing $", by decide, rfl⟩
  have hlog : run.files (texLog (ascii "doc/a.b.tex")) = some (ascii "(a.b.tex\n! Missing $\nl.7") :=
    failed_files _ _ _
  have hfail : run.ok = false := rfl
  have htext := (compile_errors _ hfail hlog herr).2
  rw [hlines] at htext
  exact htext

/-- **Without an error in the log the text is the end of the output**: the last thirty of its lines
that are not empty, one below the other.  These are the lines that `gmatch` comes upon. -/
theorem compile_tail {m : Nat} (hm : 64 < m) {path : Bytes} {run : CompileRun}
    (hfail : run.ok = false)
    (hplain : ∀ log, run.files (texLog path) = some log → ∀ l ∈ ioLines hm log, l.head? ≠ some 33) :
    let lines := ((run.output.getD []).splitOn nl).filter (· ≠ [])
    gmatch (run.output.getD []) (ascii "[^\n]+") = .ok (lines.map fun l => [.str l]) ∧
      compileResult hm path run = (false, tableConcat [nl] (lines.rtake 30)) := by
  intro lines
  have hwords : words (· = nl) (run.output.getD []) = lines := by
    have hnl : (fun c : Byte => c == nl) = fun c => decide (c = nl) :=
      funext fun c => Bool.beq_eq_decide_eq c nl
    rw [words]
    show _ = ((run.output.getD []).splitOn nl).filter (· ≠ [])
    rw [List.splitOn_eq_splitOnP, hnl]
    exact List.filter_congr fun w _ => by cases w <;> rfl
  have hnone : ((run.files (texLog path)).map fun log => texErrors (ioLines hm log)).getD [] = [] := by
    cases hlog : run.files (texLog path) with
    | none => rfl
    | some log =>
        rw [Option.map_some, Option.getD_some, texErrors_eq, excerpts_eq_nil.mpr (hplain log hlog)]
        rfl
  refine ⟨by rw [gmatch_lines, hwords], ?_⟩
  rw [← hwords, compileResult, if_neg (by simp [hfail]), hnone, if_neg (by simp)]
  rfl

theorem compile_tail_short :
    let run := failed (ascii "a.tex") none (ascii "sh: 1:\n\nlatexmk: not found\n")
    compileResult (show 64 < 8192 by decide) (ascii "a.tex") run =
      (false, ascii "sh: 1:\nlatexmk: not found") :=
  (compile_tail _ rfl fun _ h => absurd ((failed_files _ _ _).symm.trans h) (by simp)).2.trans
    (by decide)

end Tmg.Latex
