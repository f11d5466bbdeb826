/-
# `Tmg.Report` — how an error message is traced back to the template

Lua names a generated line `chunk:k:`.  `report_error_with_code` looks for the template's
path and a colon anywhere in the message, reads a number behind it, and takes it for a line
of the generated chunk:

    snprintf(prefix, sizeof(prefix), "%s:", in_path);
    p = strstr(msg, prefix);
    if (p) { p += strlen(prefix);
             parsed_line = strtol(p, &rest, 10);
             if (rest != p) ...

`locate` is that search, `lineNumber` what it is for: the number with which the message
says that it comes from the template, which stands at its head.  The two agree on exactly
the messages that `Unambiguous` describes (`rightlyAttributed_iff`); a message from
`lib/a.tmg`, and one that quotes `a.tmg:3` in its text, is taken for one from `a.tmg`.
-/
import Tmg.Str
import Tmg.Lib.Decimal

namespace Tmg

open Lib

/-! ## The C library -/

/-- `strstr(s, t)`, as an offset into `s`. -/
def strstr (s t : Bytes) : Option Nat := s.tails.findIdx? fun u => decide (t <+: u)

/-- `isspace`, in the C locale. -/
def isspace (b : Byte) : Bool := b = 32 || (9 ≤ b && b ≤ 13)

/-- `LONG_MAX` -/
def longMax : Int := 0x7fffffffffffffff

/-- `INT_MAX` -/
def intMax : Nat := 0x7fffffff

/-- A number brought into the range of a `long`. -/
def clampLong (v : Int) : Int := max (-longMax - 1) (min v longMax)

/-- `strtol(s, &rest, 10)`: the number, and `rest`, which is `s` where there is none. -/
def strtol (s : Bytes) : Int × Bytes :=
  let t := s.dropWhile isspace
  let neg := t.head? = some 45
  let digits := if neg ∨ t.head? = some 43 then t.tail else t
  let v : Int := digitsValue (digits.takeWhile isDigit)
  if digits.takeWhile isDigit = [] then (0, s)
  else (clampLong (if neg then -v else v), digits.dropWhile isDigit)

/-- The conversion of a `long` to an `int`. -/
def toInt (v : Int) : Int := v.bmod 0x100000000

/-! ## The report -/

/-- What is left of `msg` after `if (!msg)`. -/
def errorText (msg : Option CString) : CString :=
  msg.getD ⟨ascii "(unknown error)", by decide⟩

/-- `prefix`, a `char[1024]`. -/
def reportPrefix (inPath : CString) : Bytes := (inPath.bytes ++ ascii ":").take 1023

/-- The template line of a generated line, which stays as it is outside the map. -/
def templateLine (lm : List Nat) (genLine : Int) : Int :=
  if 0 < genLine ∧ genLine.toNat ≤ lm.length then lm.getD (genLine.toNat - 1) 0 else genLine

/-- The locals of `report_error_with_code` when it begins to print; `numberAt` is `p`, as
an offset into the message. -/
structure Located where
  numberAt : Nat
  genLine : Int
  origLine : Int
  errDetail : Bytes

/-- `report_error_with_code`, up to the first `fprintf`. -/
def locate (msg inPath : CString) (lm : List Nat) : Located :=
  let pre := reportPrefix inPath
  match strstr msg.bytes pre with
  | none => { numberAt := 0, genLine := -1, origLine := -1, errDetail := msg.bytes }
  | some at_ =>
      let numberAt := at_ + pre.length
      let p := msg.bytes.drop numberAt
      let (parsedLine, rest) := strtol p
      if rest ≠ p then
        let genLine := toInt parsedLine
        { numberAt := numberAt, genLine := genLine, origLine := templateLine lm genLine,
          errDetail := if rest.head? = some 58 then rest.tail else rest }
      else { numberAt := numberAt, genLine := -1, origLine := -1, errDetail := msg.bytes }

/-- The main error header. -/
def reportHeader (msg inPath : CString) (l : Located) : Bytes :=
  if l.genLine ≠ -1 then
    ascii "ERR: " ++ inPath.bytes ++ ascii ":" ++ decimalInt l.origLine ++ ascii ":" ++
      l.errDetail ++ ascii "\n\n"
  else ascii "ERR: " ++ msg.bytes ++ ascii "\n\n"

/-- `%4d` -/
def decimalInt4 (n : Int) : Bytes :=
  List.replicate (4 - (decimalInt n).length) 32 ++ decimalInt n

/-- `%.*s`: with a negative precision the whole string. -/
def precisionStr (precision : Int) (s : Bytes) : Bytes :=
  if precision < 0 then s else s.take precision.toNat

/-- The result of an operation on `int`s, where it does not overflow. -/
def checkInt (v : Int) : Option Int := if -(intMax : Int) - 1 ≤ v ∧ v ≤ intMax then some v else none

/-- One `fprintf`.  Its count of bytes is an `int`; what is printed where that overflows is
not determined. -/
def fprintf (out : Bytes) : Option Bytes := if out.length ≤ intMax then some out else none

/-- `current_line >= gen_line - 3 && current_line <= gen_line + 3` -/
def inContext (genLine currentLine : Int) : Option Bool := do
  let first ← checkInt (genLine - 3)
  if currentLine ≥ first then
    let last ← checkInt (genLine + 3)
    return decide (currentLine ≤ last)
  else return false

/-- The text of a line of the context, with its marker and its number. -/
def contextLine (genLine currentLine : Int) (text : Bytes) : Bytes :=
  let marker : Byte := if currentLine = genLine then 62 else 32
  [marker, 32] ++ decimalInt4 currentLine ++ ascii " | " ++ text ++ ascii "\n"

/-- The loop over the generated code, at `ptr`; `lineStart` is the code from `line_start`
on.  `none` where an `int` overflows, in the counter or in `fprintf`. -/
def contextLoop (genLine : Int) :
    (ptr : Bytes) → (currentLine : Int) → (lineStart : Bytes) → Option Bytes
  | [], _, _ => some []
  | ch :: ptr, currentLine, lineStart =>
      if ch = nl ∨ ptr = [] then do
        let lineLen := lineStart.length - (ch :: ptr).length + (if ch = nl then 0 else 1)
        let shown ← inContext genLine currentLine
        let line ← if shown then
            fprintf (contextLine genLine currentLine (precisionStr (toInt lineLen) lineStart))
          else some []
        let nextLine ← checkInt (currentLine + 1)
        let rest ← contextLoop genLine ptr nextLine ptr
        return line ++ rest
      else contextLoop genLine ptr currentLine lineStart

/-- `report_error_with_code`: what it prints to `stderr`. -/
def reportErrorWithCode (msg : Option CString) (inPath : CString) (lm : List Nat)
    (genCode : Option CString) : Option Bytes := do
  let msg := errorText msg
  let l := locate msg inPath lm
  let header ← fprintf (reportHeader msg inPath l)
  let context ← match genCode with
    | some genCode =>
        if l.genLine > 0 then do
          let lines ← contextLoop l.genLine genCode.bytes 1 genCode.bytes
          return ascii "--- Generated Code Context ---\n" ++ lines ++
            ascii "------------------------------\n"
        else some []
    | none => some []
  return header ++ context

/-! ## The search -/

/-- `t` occurs in `s` at `i`, and nowhere before. -/
def FirstAt (t s : Bytes) (i : Nat) : Prop := t <+: s.drop i ∧ ∀ j < i, ¬ t <+: s.drop j

theorem FirstAt.zero {t s : Bytes} (h : t <+: s) : FirstAt t s 0 :=
  ⟨h, fun _ hj => absurd hj (Nat.not_lt_zero _)⟩

theorem FirstAt.le_length {t s : Bytes} {i : Nat} (h : FirstAt t s i) : i ≤ s.length := by
  by_contra hgt
  -- past the end only the empty string occurs, which occurs at the end already
  have hnil : s.drop i = [] := List.drop_eq_nil_of_le (by omega)
  have ht : t = [] := by simpa [hnil] using h.1
  exact h.2 s.length (by omega) (by simp [ht])

theorem strstr_eq_some_iff {s t : Bytes} {i : Nat} : strstr s t = some i ↔ FirstAt t s i := by
  rw [strstr, List.findIdx?_eq_some_iff_getElem]
  simp only [List.getElem_tails, decide_eq_true_eq, List.length_tails]
  constructor
  · rintro ⟨_, hi, hbefore⟩
    exact ⟨hi, hbefore⟩
  · intro h
    exact ⟨Nat.lt_succ_of_le h.le_length, h.1, h.2⟩

/-- A run of digits is read whole, and nothing behind it. -/
theorem strtol_digits {digits rest : Bytes} (hne : digits ≠ [])
    (hdigits : ∀ b ∈ digits, isDigit b = true) (hrest : ∀ b ∈ rest.head?, isDigit b = false) :
    strtol (digits ++ rest) = (clampLong (digitsValue digits), rest) := by
  obtain ⟨d, ds, rfl⟩ := List.exists_cons_of_ne_nil hne
  have hd : isDigit d = true := hdigits d List.mem_cons_self
  have hspace : isspace d = false := by grind [isspace, isDigit]
  have hminus : d ≠ 45 := by grind [isDigit]
  have hplus : d ≠ 43 := by grind [isDigit]
  obtain ⟨htake, hdrop⟩ := takeWhile_digits hdigits hrest
  have hhead : (d :: ds ++ rest).dropWhile isspace = d :: ds ++ rest := by simp [hspace]
  rw [strtol, hhead]
  simp only [List.cons_append, List.head?_cons, Option.some.injEq, hminus, hplus, or_self, if_false]
  rw [← List.cons_append, htake, hdrop, if_neg (List.cons_ne_nil d ds)]

theorem toInt_le (v : Int) : toInt v ≤ intMax := by
  have h : v.bmod 0x100000000 < ((0x100000000 : Nat) + 1) / 2 := Int.bmod_lt (by decide)
  rw [toInt, intMax]
  omega

/-- A line number survives the conversions exactly when it is an `int`. -/
theorem toInt_clampLong (k : Nat) : toInt (clampLong k) = k ↔ k ≤ intMax := by
  constructor
  · intro h
    have hle := toInt_le (clampLong k)
    omega
  · intro h
    rw [intMax] at h
    have hlong : clampLong k = k := by
      rw [clampLong, longMax]
      omega
    rw [hlong, toInt]
    exact Int.bmod_eq_of_le (by omega) (by omega)

/-! ## Which lines are attributed to the template -/

/-- The number with which a message begins, behind the template's path and a colon, and
where it stands. -/
def lineNumber (msg inPath : CString) : Option (Nat × Nat) :=
  let digits := (msg.bytes.drop (inPath.strlen + 1)).takeWhile isDigit
  if inPath.bytes ++ ascii ":" <+: msg.bytes ∧ digits ≠ [] then
    some (inPath.strlen + 1, digitsValue digits)
  else none

/-- What is taken for a line of the template: where the number stands, the generated line
it gives, and the line shown. -/
def Located.attributed (l : Located) : Option (Nat × Int × Int) :=
  if l.genLine ≠ -1 then some (l.numberAt, l.genLine, l.origLine) else none

/-- The number with which the message begins is translated by the line map, and no other
number is. -/
def RightlyAttributed (msg inPath : CString) (lm : List Nat) : Prop :=
  (locate msg inPath lm).attributed
    = (lineNumber msg inPath).map fun (i, k) => (i, (k : Int), templateLine lm k)

instance (msg inPath : CString) (lm : List Nat) : Decidable (RightlyAttributed msg inPath lm) :=
  inferInstanceAs (Decidable (_ = _))

/-- A message that begins with a line number: the path fits into `prefix` and the number
into an `int`.  Any other: no number stands behind the first occurrence of `prefix`, or one
that as an `int` is `-1`. -/
def Unambiguous (msg inPath : CString) : Prop :=
  match lineNumber msg inPath with
  | some (_, k) => inPath.strlen < 1023 ∧ k ≤ intMax
  | none => ∀ i, FirstAt (reportPrefix inPath) msg.bytes i →
      let p := msg.bytes.drop (i + (reportPrefix inPath).length)
      (strtol p).2 = p ∨ toInt (strtol p).1 = -1

variable {msg inPath : CString}

/-- Where `prefix` does not occur, nothing is attributed. -/
theorem attributed_none (lm : List Nat) (h : ∀ i, ¬ FirstAt (reportPrefix inPath) msg.bytes i) :
    (locate msg inPath lm).attributed = none := by
  have hnone : strstr msg.bytes (reportPrefix inPath) = none :=
    Option.eq_none_iff_forall_ne_some.mpr fun i hi => h i (strstr_eq_some_iff.mp hi)
  simp [locate, hnone, Located.attributed]

/-- Where it occurs, the number behind its first occurrence is. -/
theorem attributed_firstAt (lm : List Nat) {i : Nat}
    (h : FirstAt (reportPrefix inPath) msg.bytes i) :
    let at_ := i + (reportPrefix inPath).length
    let q := strtol (msg.bytes.drop at_)
    (locate msg inPath lm).attributed
      = if q.2 = msg.bytes.drop at_ ∨ toInt q.1 = -1 then none
        else some (at_, toInt q.1, templateLine lm (toInt q.1)) := by
  intro at_ q
  have hsome : strstr msg.bytes (reportPrefix inPath) = some i := strstr_eq_some_iff.mpr h
  have hloc : (locate msg inPath lm).attributed
      = if q.2 ≠ msg.bytes.drop at_ then
          if toInt q.1 ≠ -1 then some (at_, toInt q.1, templateLine lm (toInt q.1)) else none
        else none := by
    simp only [locate, hsome]
    split <;> rfl
  rw [hloc]
  by_cases hrest : q.2 = msg.bytes.drop at_
  · simp [hrest]
  · simp [hrest]

/-- What it means that a message begins with a line number. -/
theorem lineNumber_eq_some {i k : Nat} (h : lineNumber msg inPath = some (i, k)) :
    i = inPath.strlen + 1 ∧ ∃ digits rest,
      msg.bytes = inPath.bytes ++ ascii ":" ++ (digits ++ rest) ∧ digits ≠ [] ∧
      (∀ b ∈ digits, isDigit b = true) ∧ (∀ b ∈ rest.head?, isDigit b = false) ∧
      digitsValue digits = k := by
  simp only [lineNumber] at h
  split at h
  · next hnum =>
      obtain ⟨⟨tail, htail⟩, hne⟩ := hnum
      simp only [Option.some.injEq, Prod.mk.injEq] at h
      have hlen : (inPath.bytes ++ ascii ":").length = inPath.strlen + 1 := by
        simp [CString.strlen, ascii]
      have hdrop : msg.bytes.drop (inPath.strlen + 1) = tail := by
        rw [← htail, ← hlen, List.drop_left]
      rw [hdrop] at h hne
      refine ⟨h.1.symm, tail.takeWhile isDigit, tail.dropWhile isDigit, ?_, hne, ?_, ?_, h.2⟩
      · rw [List.takeWhile_append_dropWhile, htail]
      · intro b hb
        exact List.mem_takeWhile_imp hb
      · intro b hb
        have hnot := List.head?_dropWhile_not isDigit tail
        rw [Option.mem_def.mp hb] at hnot
        exact hnot
  · simp at h

theorem lineNumber_of_digits {digits rest : Bytes}
    (hmsg : msg.bytes = inPath.bytes ++ ascii ":" ++ (digits ++ rest))
    (hne : digits ≠ []) (hdigits : ∀ b ∈ digits, isDigit b = true)
    (hrest : ∀ b ∈ rest.head?, isDigit b = false) :
    lineNumber msg inPath = some (inPath.strlen + 1, digitsValue digits) := by
  have hlen : (inPath.bytes ++ ascii ":").length = inPath.strlen + 1 := by
    simp [CString.strlen, ascii]
  have hdrop : msg.bytes.drop (inPath.strlen + 1) = digits ++ rest := by
    rw [hmsg, ← hlen, List.drop_left]
  have hpre : inPath.bytes ++ ascii ":" <+: msg.bytes := hmsg ▸ List.prefix_append _ _
  simp only [lineNumber, hdrop, (takeWhile_digits hdigits hrest).1]
  rw [if_pos ⟨hpre, hne⟩]

theorem length_reportPrefix (inPath : CString) :
    (reportPrefix inPath).length = min 1023 (inPath.strlen + 1) := by
  simp [reportPrefix, CString.strlen, ascii]

/-- A message that begins with a line number: the search finds `prefix` at its head. -/
theorem rightlyAttributed_some (lm : List Nat) {i k : Nat}
    (h : lineNumber msg inPath = some (i, k)) :
    RightlyAttributed msg inPath lm ↔ inPath.strlen < 1023 ∧ k ≤ intMax := by
  obtain ⟨rfl, digits, rest, hmsg, hne, hdigits, hrest, rfl⟩ := lineNumber_eq_some h
  have hfirst : FirstAt (reportPrefix inPath) msg.bytes 0 := by
    refine FirstAt.zero ((List.take_prefix _ _).trans ?_)
    rw [hmsg]
    exact List.prefix_append _ _
  have hlen := length_reportPrefix inPath
  have hattr := attributed_firstAt lm hfirst
  rw [RightlyAttributed, h, hattr]
  simp only [Nat.zero_add, Option.map_some]
  by_cases hfits : inPath.strlen < 1023
  · -- the number is read, and kept if it is an `int`
    have hdrop : msg.bytes.drop (reportPrefix inPath).length = digits ++ rest := by
      have hpath : (inPath.bytes ++ ascii ":").length = (reportPrefix inPath).length := by
        rw [hlen, min_eq_right (by omega)]
        simp [CString.strlen, ascii]
      rw [hmsg, ← hpath, List.drop_left]
    have hread : rest ≠ digits ++ rest := fun hnil => hne (by simpa using hnil)
    rw [hdrop, strtol_digits hne hdigits hrest, hlen, min_eq_right (by omega)]
    simp only [hread, false_or, hfits, true_and]
    rw [← toInt_clampLong (digitsValue digits)]
    constructor
    · intro heq
      split at heq
      · simp at heq
      · simp only [Option.some.injEq, Prod.mk.injEq, true_and] at heq
        exact heq.1
    · intro hval
      rw [hval, if_neg (by omega)]
  · -- the path is cut off, and the number is looked for inside it
    have hother : (reportPrefix inPath).length ≠ inPath.strlen + 1 := by
      rw [hlen]
      omega
    refine iff_of_false (fun heq => ?_) (fun hc => hfits hc.1)
    split at heq
    · simp at heq
    · simp only [Option.some.injEq, Prod.mk.injEq] at heq
      exact hother heq.1

/-- **A message is attributed to the template as it should be exactly when it is
unambiguous.** -/
theorem rightlyAttributed_iff (msg : Option CString) (inPath : CString) (lm : List Nat) :
    RightlyAttributed (errorText msg) inPath lm ↔ Unambiguous (errorText msg) inPath := by
  generalize errorText msg = msg
  rw [Unambiguous]
  cases hnum : lineNumber msg inPath with
  | some number => exact rightlyAttributed_some lm hnum
  | none =>
      rw [RightlyAttributed, hnum, Option.map_none]
      constructor
      · intro hattr i hfirst
        rw [attributed_firstAt lm hfirst] at hattr
        by_contra hread
        rw [if_neg hread] at hattr
        simp at hattr
      · intro hread
        by_cases hex : ∃ i, FirstAt (reportPrefix inPath) msg.bytes i
        · obtain ⟨i, hfirst⟩ := hex
          rw [attributed_firstAt lm hfirst, if_pos (hread i hfirst)]
        · exact attributed_none lm fun i hfirst => hex ⟨i, hfirst⟩

/-- An error of the module `lib/a.tmg` is reported as one of the template `a.tmg`, and so
is one that names `a.tmg` in its text. -/
theorem attributed_elsewhere :
    let inPath : CString := ⟨ascii "a.tmg", by decide⟩
    let required : CString := ⟨ascii "lib/a.tmg:3: x", by decide⟩
    let quoted : CString := ⟨ascii "b.lua:7: see a.tmg:3", by decide⟩
    (lineNumber required inPath = none ∧
        (locate required inPath [1, 1, 2]).attributed = some (10, 3, 2)) ∧
      (lineNumber quoted inPath = none ∧
        (locate quoted inPath [1, 1, 2]).attributed = some (19, 3, 2)) ∧
      ¬ RightlyAttributed required inPath [1, 1, 2] ∧
      ¬ RightlyAttributed quoted inPath [1, 1, 2] := by
  intro inPath required quoted
  exact ⟨by decide, by decide, by decide, by decide⟩

end Tmg
