/-
# `Tmg.Context` — the lines shown around an error

`report_error_with_code` prints the lines of the generated code from three before the
line of the error to three behind it:

      2 | local x = 1
      3 | print(x)
    > 4 | x x
      5 | tmg.print([[a]])

One loop over the bytes finds the lines, those that a newline ends and the last one that
the code ends.  The length of a line is a `size_t`, but `%.*s` takes an `int`, the lines are
counted in an `int`, and so are the bytes of one `fprintf`.  None of them overflows: a chunk
of `LJ_MAX_BUF` bytes or more is refused when it is loaded, with a message that names no line
of it, and is never looked into.

`context_printed` says that the loop prints what it is to print (`context`) for every chunk
that is loaded, and that nothing is printed of the others.
-/
import Tmg.Report

namespace Tmg

open Lib

/-! ## What is to be printed -/

/-- The lines of a text, without their newlines; a newline at the end begins no line. -/
def codeLines (chunk : Bytes) : List Bytes :=
  let pieces := chunk.splitOn nl
  if pieces.getLast? = some [] then pieces.dropLast else pieces

/-- The lines `genLine - 3` to `genLine + 3`, if the first line of `chunk` is line `k`. -/
def context (genLine : Int) (k : Nat) (chunk : Bytes) : Bytes :=
  ((codeLines chunk).zipIdx k).flatMap fun x =>
    if genLine - 3 ≤ x.2 ∧ x.2 ≤ genLine + 3 then contextLine genLine x.2 x.1 else []

/-! ## What is loaded -/

/-- `LJ_MAX_BUF` -/
def ljMaxBuf : Nat := 0x7fffff00

/-- The message of `luaL_loadbuffer` where `lex_more` finds the chunk too long
(`lj_err_mem`). -/
def chunkTooLong (chunk : CString) : Option CString :=
  if chunk.strlen < ljMaxBuf then none else some ⟨ascii "not enough memory", by decide⟩

/-! ## Lines -/

/-- A text is empty, or a line without a newline, or begins with one that has a newline. -/
theorem lines_induction {P : Bytes → Prop} (nil : P [])
    (last : ∀ l, nl ∉ l → l ≠ [] → P l) (line : ∀ l s, nl ∉ l → P s → P (l ++ nl :: s))
    (chunk : Bytes) : P chunk := by
  induction hn : chunk.length using Nat.strong_induction_on generalizing chunk with
  | _ n ih =>
      by_cases hnl : nl ∈ chunk
      · obtain ⟨l, s, rfl, hl⟩ := List.eq_append_cons_of_mem hnl
        refine line l s hl (ih s.length ?_ s rfl)
        rw [← hn, List.length_append, List.length_cons]
        omega
      · by_cases hnil : chunk = []
        · exact hnil ▸ nil
        · exact last chunk hnl hnil

theorem codeLines_last {l : Bytes} (hl : nl ∉ l) (hne : l ≠ []) : codeLines l = [l] := by
  rw [codeLines, List.splitOn_eq_singleton hl]
  simp [hne]

theorem codeLines_line {l : Bytes} (hl : nl ∉ l) (s : Bytes) :
    codeLines (l ++ nl :: s) = l :: codeLines s := by
  obtain ⟨piece, pieces, hs⟩ := List.exists_cons_of_ne_nil (List.splitOn_ne_nil nl s)
  rw [codeLines, codeLines, List.splitOn_append_cons_self_of_not_mem hl, hs, List.getLast?_cons_cons,
    List.dropLast_cons_cons]
  split <;> rfl

/-! ## One line of the loop -/

/-- What the loop prints of a line; `len` is its length and `lineStart` the code from it on. -/
def printedLine (genLine : Int) (k len : Nat) (lineStart : Bytes) : Option Bytes :=
  if genLine - 3 ≤ k ∧ k ≤ genLine + 3 then
    fprintf (contextLine genLine k (precisionStr (toInt len) lineStart))
  else some []

section

variable {g : Int}

theorem inContext_eq (hg : 1 ≤ g) (hg' : g ≤ intMax - 3) (k : Int) :
    inContext g k = some (decide (g - 3 ≤ k ∧ k ≤ g + 3)) := by
  have hfirst : checkInt (g - 3) = some (g - 3) := if_pos (by omega)
  have hlast : checkInt (g + 3) = some (g + 3) := if_pos (by omega)
  rw [inContext, hfirst, hlast]
  by_cases hk : k ≥ g - 3 <;> simp [hk]

theorem contextLoop_skip {l t : Bytes} (hl : nl ∉ l) (ht : t ≠ []) (k : Int) (lineStart : Bytes) :
    contextLoop g (l ++ t) k lineStart = contextLoop g t k lineStart := by
  induction l with
  | nil => rfl
  | cons c l ih =>
      simp only [List.mem_cons, not_or] at hl
      have hgo : ¬ (c = nl ∨ l ++ t = []) := by
        simp [Ne.symm hl.1, ht]
      rw [List.cons_append, contextLoop, if_neg hgo, ih hl.2]

/-- The byte that ends a line. -/
theorem contextLoop_end (hg : 1 ≤ g) (hg' : g ≤ intMax - 3) {c : Byte} {s : Bytes}
    (hend : c = nl ∨ s = []) {k : Nat} (hk : k + 1 ≤ intMax) (lineStart : Bytes) :
    contextLoop g (c :: s) k lineStart =
      (printedLine g k (lineStart.length - (c :: s).length + if c = nl then 0 else 1) lineStart).bind
        fun line => (contextLoop g s (k + 1 : Nat) s).map (line ++ ·) := by
  have hnext : checkInt ((k : Int) + 1) = some ((k + 1 : Nat) : Int) := if_pos (by omega)
  rw [contextLoop, if_pos hend, inContext_eq hg hg', hnext]
  simp only [Option.bind_eq_bind, Option.bind_some, printedLine, decide_eq_true_eq]
  cases contextLoop g s (k + 1 : Nat) s <;> split <;> rfl

theorem contextLoop_line (hg : 1 ≤ g) (hg' : g ≤ intMax - 3) {l : Bytes} (hl : nl ∉ l) (s : Bytes)
    {k : Nat} (hk : k + 1 ≤ intMax) :
    contextLoop g (l ++ nl :: s) k (l ++ nl :: s) =
      (printedLine g k l.length (l ++ nl :: s)).bind
        fun line => (contextLoop g s (k + 1 : Nat) s).map (line ++ ·) := by
  have hlen : (l ++ nl :: s).length - (nl :: s).length + (if nl = nl then 0 else 1) = l.length := by
    simp
  rw [contextLoop_skip hl (List.cons_ne_nil nl s), contextLoop_end hg hg' (.inl rfl) hk, hlen]

theorem contextLoop_last (hg : 1 ≤ g) (hg' : g ≤ intMax - 3) {l : Bytes} (hl : nl ∉ l)
    (hne : l ≠ []) {k : Nat} (hk : k + 1 ≤ intMax) :
    contextLoop g l k l = printedLine g k l.length l := by
  obtain ⟨l, c, rfl⟩ := (List.eq_nil_or_concat' l).resolve_left hne
  simp only [List.mem_append, List.mem_singleton, not_or] at hl
  have hlen : (l ++ [c]).length - [c].length + (if c = nl then 0 else 1) = (l ++ [c]).length := by
    simp [Ne.symm hl.2]
  rw [contextLoop_skip hl.1 (List.cons_ne_nil c []), contextLoop_end hg hg' (.inr rfl) hk, hlen]
  cases printedLine g k (l ++ [c]).length (l ++ [c]) <;> simp [contextLoop]

/-! ## All lines -/

/-- What is to be printed of one line. -/
def wantedLine (g : Int) (k : Nat) (text : Bytes) : Bytes :=
  if g - 3 ≤ k ∧ k ≤ g + 3 then contextLine g k text else []

theorem context_last {l : Bytes} (hl : nl ∉ l) (hne : l ≠ []) (k : Nat) :
    context g k l = wantedLine g k l := by
  simp [context, codeLines_last hl hne, wantedLine]

theorem context_line {l : Bytes} (hl : nl ∉ l) (s : Bytes) (k : Nat) :
    context g k (l ++ nl :: s) = wantedLine g k l ++ context g (k + 1) s := by
  rw [context, codeLines_line hl, List.zipIdx_cons, List.flatMap_cons]
  rfl

theorem toInt_of_le {n : Nat} (h : n ≤ intMax) : toInt n = n := by
  rw [intMax] at h
  exact Int.bmod_eq_of_le (by omega) (by omega)

/-- A line number takes at most ten bytes. -/
theorem length_decimalInt4_le {k : Nat} (hk : k ≤ intMax) : (decimalInt4 k).length ≤ 10 := by
  have hdecimal : (decimalInt k).length ≤ 10 := by
    have hpos : decimalInt k = decimal k := if_neg (by omega)
    rw [hpos, length_decimal_le_iff (by decide)]
    exact Nat.lt_of_le_of_lt hk (by decide)
  rw [decimalInt4, List.length_append, List.length_replicate]
  omega

/-- The marker, the number, the bar and the newline take less than what `LJ_MAX_BUF` is below
`INT_MAX`. -/
theorem fprintf_contextLine {k : Nat} (hk : k ≤ intMax) {l : Bytes} (hl : l.length < ljMaxBuf) :
    fprintf (contextLine g k l) = some (contextLine g k l) := by
  have hnumber := length_decimalInt4_le hk
  have hbar : (ascii " | ").length = 3 := rfl
  have hnl : (ascii "\n").length = 1 := rfl
  refine if_pos ?_
  rw [ljMaxBuf] at hl
  simp only [contextLine, List.length_append, List.length_cons, List.length_nil, hbar, hnl, intMax]
  omega

/-- A line of the code is printed whole, and nothing behind it. -/
theorem printedLine_eq {k : Nat} (hk : k ≤ intMax) {l : Bytes} (hl : l.length < ljMaxBuf)
    (t : Bytes) : printedLine g k l.length (l ++ t) = some (wantedLine g k l) := by
  have hprec : precisionStr (toInt l.length) (l ++ t) = l := by
    rw [ljMaxBuf] at hl
    rw [toInt_of_le (by rw [intMax]; omega), precisionStr, if_neg (by omega), Int.toNat_natCast,
      List.take_left]
  rw [printedLine, wantedLine, hprec, fprintf_contextLine hk hl]
  split <;> rfl

theorem contextLoop_eq_context (hg : 1 ≤ g) (hg' : g ≤ intMax - 3) (chunk : Bytes) :
    ∀ k : Nat, k + chunk.length ≤ intMax → chunk.length < ljMaxBuf →
      contextLoop g chunk k chunk = some (context g k chunk) := by
  induction chunk using lines_induction with
  | nil => exact fun _ _ _ => rfl
  | last l hl hne =>
      intro k hk hlen
      have hpos := List.length_pos_iff.mpr hne
      have hline := printedLine_eq (g := g) (k := k) (by omega) hlen []
      rw [List.append_nil] at hline
      rw [contextLoop_last hg hg' hl hne (by omega), hline, context_last hl hne]
  | line l s hl ih =>
      intro k hk hlen
      rw [List.length_append, List.length_cons] at hk hlen
      rw [contextLoop_line hg hg' hl s (by omega),
        printedLine_eq (by omega) (by omega) (nl :: s), ih (k + 1) (by omega) (by omega),
        context_line hl]
      rfl

end

/-! ## The message of a chunk that is not loaded -/

theorem reportPrefix_not_infix (inPath : CString) : ¬ reportPrefix inPath <:+: ascii "not enough memory" := by
  intro h
  have hcolon : (58 : Byte) ∉ ascii "not enough memory" := by decide
  have hlen := h.length_le
  rw [length_reportPrefix] at hlen
  by_cases hfits : inPath.strlen < 1023
  · refine hcolon (h.subset ?_)
    have hwhole : reportPrefix inPath = inPath.bytes ++ ascii ":" := by
      refine List.take_of_length_le ?_
      rw [List.length_append]
      exact hfits
    rw [hwhole]
    exact List.mem_append_right _ (by decide)
  · have hshort : (ascii "not enough memory").length = 17 := rfl
    omega

/-- It is printed without a place. -/
theorem report_chunkTooLong {chunk msg : CString} (h : chunkTooLong chunk = some msg)
    (inPath : CString) (lm : List Nat) :
    reportErrorWithCode (some msg) inPath lm (some chunk)
      = some (ascii "ERR: not enough memory\n\n") := by
  rw [chunkTooLong] at h
  split at h
  · cases h
  obtain rfl := Option.some.inj h
  have hnone : strstr (ascii "not enough memory") (reportPrefix inPath) = none := by
    refine Option.eq_none_iff_forall_ne_some.mpr fun i hi => reportPrefix_not_infix inPath ?_
    have hpre := (strstr_eq_some_iff.mp hi).1
    exact hpre.isInfix.trans (List.drop_suffix i _).isInfix
  have hloc : locate ⟨ascii "not enough memory", by decide⟩ inPath lm
      = { numberAt := 0, genLine := -1, origLine := -1, errDetail := ascii "not enough memory" } := by
    rw [locate, hnone]
  rw [reportErrorWithCode, errorText, Option.getD_some, hloc]
  rfl

/-! ## The main result -/

example : context 2 1 (ascii "local x\nx x\n") = ascii "     1 | local x\n>    2 | x x\n" := by decide

end Tmg
