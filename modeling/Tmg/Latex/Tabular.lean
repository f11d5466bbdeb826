/-
# `Tmg.Latex.Tabular` — a table of texts, read back

LaTeX splits the body of a table at `&` and at `\\`.  Behind `\\`, and behind a rule of
booktabs, it goes on over blanks and ends of lines to look for an argument of the command:

    \\    * [ ... ]        what the row break takes for its own
    \toprule, \midrule, \bottomrule
    \hline                 takes nothing

`row_str` escapes `&` and the backslash in a cell, so no text splits a row; a star and a
bracket it leaves, and the first cell of a row stands where they are looked for:

    rows = { {"a"}, {"[b]"} }      a \\             read as  a   and an empty cell
                                   [b] \\

The table is read back, up to the blanks at the ends of its cells, exactly where every row
has a cell and no first cell begins so behind a row or such a rule (`TextTable.legible`,
`tabular_readTabular_iff`).  One step of the reader never gains more ink than its token has
(`tabStep_gains`), so what a command has taken is missing from the rows at the end.
-/
import Tmg.Lib.Run
import Tmg.Lib.Strip
import Tmg.Latex.Grid
import Tmg.Latex.OptionalArg

namespace Tmg.Latex

open Tmg Lib

/-! ## The reader -/

/-- The rules of a table. -/
inductive Rule where
  | toprule
  | midrule
  | bottomrule
  | hline
deriving DecidableEq, Repr

namespace Rule

def name : Rule → Bytes
  | toprule => ascii "toprule"
  | midrule => ascii "midrule"
  | bottomrule => ascii "bottomrule"
  | hline => ascii "hline"

/-- A rule of booktabs looks for an argument. -/
def looks : Rule → Bool
  | hline => false
  | _ => true

def cmd (r : Rule) : Bytes := bsl :: r.name

end Rule

/-- The rule that a token draws. -/
def ruleOf : Tok Byte → Option Rule
  | .word w => [Rule.toprule, .midrule, .bottomrule, .hline].find? (·.name = w)
  | _ => none

/-- The text of a cell, without the blanks at its ends. -/
def cellText (read : List (Tok Byte)) : Bytes := spell (strip isBlank read)

/-- Where the reader stands: in front of a row, where a star and a bracket may be arguments
of what stands there; in such an argument; in a cell, with those before it in the row. -/
inductive TabPlace where
  | start (star bracket : Bool)
  | arg (depth : Nat) (read : List (Tok Byte))
  | cell (row : List Bytes) (depth : Nat) (read : List (Tok Byte))
deriving DecidableEq, Repr

/-- The place behind `\\` or a rule. -/
def TabPlace.fresh (looks : Bool) : TabPlace := .start looks looks

/-- One token of a cell that is no brace: outside braces `&` ends the cell and `\\` the row. -/
def plainStep (rows : List (List Bytes)) (row : List Bytes) (depth : Nat) (read : List (Tok Byte))
    (t : Tok Byte) : Option (List (List Bytes) × TabPlace) :=
  if depth = 0 ∧ t = .chr 38 then some (rows, .cell (row ++ [cellText read]) 0 [])
  else if depth = 0 ∧ t = .sym bsl then some (rows ++ [row ++ [cellText read]], .fresh true)
  else if (ruleOf t).isSome then none
  else some (rows, .cell row depth (read ++ [t]))

/-- One token of a cell. -/
def cellStep (rows : List (List Bytes)) (row : List Bytes) :
    Nat → List (Tok Byte) → Tok Byte → Option (List (List Bytes) × TabPlace)
  | depth, read, .opening => some (rows, .cell row (depth + 1) (read ++ [.opening]))
  | 0, _, .closing => none
  | depth + 1, read, .closing => some (rows, .cell row depth (read ++ [.closing]))
  | depth, read, t => plainStep rows row depth read t

/-- One token of the body of a table. -/
def tabStep : List (List Bytes) × TabPlace → Tok Byte → Option (List (List Bytes) × TabPlace)
  | (rows, .start star bracket), t =>
      if isBlank t = true then some (rows, .start star bracket)
      else if star = true ∧ t = .chr 42 then some (rows, .start false bracket)
      else if bracket = true ∧ t = .chr lbr then some (rows, .arg 0 [])
      else match ruleOf t with
        | some r => some (rows, .fresh r.looks)
        | none => cellStep rows [] 0 [] t
  | (rows, .arg depth read), t =>
      match argStep (depth, read) t with
      | none => none
      | some (.inl (depth, read)) => some (rows, .arg depth read)
      | some (.inr _) => some (rows, .fresh false)
  | (rows, .cell row depth read), t => cellStep rows row depth read t

/-- The rows of cells in the body of a table, as LaTeX reads them. -/
def readTabular (body : Bytes) : Option (List (List Bytes)) :=
  match (lex texCat body).foldlM tabStep ([], .fresh false) with
  | some (rows, .start _ _) => some rows
  | _ => none

/-! ## Tables of texts -/

/-- A line of a table of texts. -/
inductive TextLine where
  | rule (r : Rule)
  | row (cells : List Bytes)
deriving DecidableEq, Repr

/-- A table with texts in its cells. -/
structure TextTable where
  cols : Option Bytes
  header : Option (List Bytes)
  lines : List TextLine
  booktabs : Bool
  resize : Bool

/-- A row of texts, as it is given to `L.tabular`. -/
def textRow (cells : List Bytes) : Val := .list .nil (cells.map .str)

namespace TextLine

def toVal : TextLine → Val
  | rule r => .rule r.cmd
  | row cells => textRow cells

/-- The line that is written for it. -/
def line : TextLine → Line
  | rule r => .rule r.cmd
  | row cells => .cells (cells.map escape)

def cells? : TextLine → Option (List Bytes)
  | rule _ => none
  | row cells => some cells

end TextLine

/-- A blank byte. -/
def blank (c : Byte) : Bool := isBlank (.chr c)

/-- The cell begins with a star or a bracket, perhaps behind blanks. -/
def opensArg (cell : Bytes) : Bool :=
  match cell.dropWhile blank with
  | [] => false
  | c :: _ => c = 42 || c = lbr

/-- Every row has a cell, and none that begins with a star or a bracket stands directly
behind a row or a rule that looks for it. -/
def legibleFrom : Bool → List TextLine → Bool
  | _, [] => true
  | _, .rule r :: ls => legibleFrom r.looks ls
  | _, .row [] :: _ => false
  | looks, .row (c :: _) :: ls => !(looks && opensArg c) && legibleFrom true ls

namespace TextTable

/-- The argument of `L.tabular`. -/
def cfg (t : TextTable) : TabCfg Val where
  cols := t.cols
  header := (t.header.map textRow).getD .nil
  rows := t.lines.map TextLine.toVal
  booktabs := t.booktabs
  resize := t.resize

/-- The rule at the top, below the header, at the bottom. -/
def ruleAt (booktabs : Bool) (r : Rule) : Rule := if booktabs then r else .hline

def headerLines (t : TextTable) : List TextLine :=
  match t.header with
  | some cells => [.row cells, .rule (ruleAt t.booktabs .midrule)]
  | none => []

/-- All lines of the table, with the rules that are drawn around it. -/
def allLines (t : TextTable) : List TextLine :=
  [.rule (ruleAt t.booktabs .toprule)] ++ t.headerLines ++ t.lines
    ++ [.rule (ruleAt t.booktabs .bottomrule)]

/-- The header and the rows of cells. -/
def rows (t : TextTable) : List (List Bytes) := t.header.toList ++ t.lines.filterMap TextLine.cells?

def legible (t : TextTable) : Bool := legibleFrom false t.allLines

end TextTable

/-! ## What is written -/

theorem rowCells_str (what : Bytes) (ctx : Ctx) (cells : List Bytes) :
    ∀ i : Nat, rowCells renderNode ctx what i (cells.map .str) = .ok (cells.map escape) := by
  induction cells with
  | nil => exact fun _ => rfl
  | cons c cells ih =>
      intro i
      have hnil : ¬ (Val.str c).isNil = true := Bool.false_ne_true
      rw [List.map_cons, rowCells, if_neg hnil, inlineVal_str, ih]
      rfl

theorem gridRow_textRow (what : Bytes) (ctx : Ctx) (cells : List Bytes) :
    gridRow renderNode ctx what (textRow cells) = .ok (cells.map escape) :=
  rowCells_str what ctx cells 1

theorem gridLines_text (ctx : Ctx) :
    ∀ (ls : List TextLine) (i : Nat),
      gridLines renderNode ctx i (ls.map TextLine.toVal) = .ok (ls.map TextLine.line)
  | [], i => rfl
  | .rule r :: ls, i => by
      have ih := gridLines_text ctx ls (i + 1)
      simp only [List.map_cons, TextLine.toVal, gridLines, ih]
      rfl
  | .row cells :: ls, i => by
      have ih := gridLines_text ctx ls (i + 1)
      have hrow := gridRow_textRow (ascii "row #" ++ decimal i) ctx cells
      rw [textRow] at hrow
      simp only [List.map_cons, TextLine.toVal, textRow, gridLines, hrow, ih]
      rfl

theorem topRule_eq (booktabs : Bool) :
    topRule booktabs = (TextTable.ruleAt booktabs .toprule).cmd ∧
      midRule booktabs = (TextTable.ruleAt booktabs .midrule).cmd ∧
        botRule booktabs = (TextTable.ruleAt booktabs .bottomrule).cmd := by
  cases booktabs <;> decide

/-- A table of texts is written line by line. -/
theorem tabularGrid_text (t : TextTable) (ctx : Ctx) :
    ∃ g, tabularGrid renderNode t.cfg ctx = .ok g ∧
      g.allLines t.booktabs = t.allLines.map TextLine.line := by
  obtain ⟨htop, hmid, hbot⟩ := topRule_eq t.booktabs
  have hhead : gridHeader renderNode ctx t.cfg.header = .ok (t.header.map (·.map escape)) := by
    rw [TextTable.cfg]
    cases t.header with
    | none => rfl
    | some cells =>
        have htruthy : (textRow cells).truthy = true := rfl
        rw [Option.map_some, Option.getD_some, gridHeader, if_pos htruthy, gridRow_textRow]
        rfl
  have hcount : ∃ n, ncols t.cfg = .ok n := by
    rw [ncols, TextTable.cfg]
    cases t.header with
    | none => exact ⟨_, rfl⟩
    | some cells => exact ⟨_, rfl⟩
  obtain ⟨n, hn⟩ := hcount
  have hlines := gridLines_text ctx t.lines 1
  refine ⟨⟨t.cols.getD (List.replicate (n.getD 1) 108), t.header.map (·.map escape),
    t.lines.map TextLine.line⟩, ?_, ?_⟩
  · rw [tabularGrid, hn, hhead]
    change (gridLines renderNode ctx 1 (t.lines.map TextLine.toVal) >>= _) = _
    rw [hlines]
    rfl
  · rw [Grid.allLines, htop, hbot, TextTable.allLines, TextTable.headerLines]
    cases t.header with
    | none => simp [headLines, TextLine.line]
    | some cells => simp [headLines, hmid, TextLine.line]

/-! ## The tokens of the body -/

/-- The tokens of a row behind its first cell. -/
def tailToks (cells : List Bytes) : List (Tok Byte) :=
  cells.flatMap (fun c => [.chr 32, .chr 38, .chr 32] ++ c.flatMap escToks) ++ [.chr 32, .sym bsl]

def rowToks : List Bytes → List (Tok Byte)
  | [] => tailToks []
  | c :: cells => c.flatMap escToks ++ tailToks cells

def TextLine.toks (n : Nat) : TextLine → List (Tok Byte)
  | rule r => layout n ++ [.word r.name]
  | row cells => layout n ++ rowToks cells

theorem lex_seq {s t : Bytes} {a b : List (Tok Byte)} (hs : lex texCat s = a ∧ Sealed texCat s)
    (ht : lex texCat t = b ∧ Sealed texCat t) :
    lex texCat (s ++ t) = a ++ b ∧ Sealed texCat (s ++ t) := by
  rw [lex_append_of_sealed hs.2, hs.1, ht.1]
  exact ⟨rfl, hs.2.append ht.2⟩

theorem tailToks_cons (c : Bytes) (cells : List Bytes) :
    tailToks (c :: cells) = [.chr 32, .chr 38, .chr 32] ++ c.flatMap escToks ++ tailToks cells := by
  rw [tailToks, tailToks, List.flatMap_cons, List.append_assoc]

theorem lex_tail (cells : List Bytes) :
    lex texCat ((cells.map escape).flatMap (ascii " & " ++ ·) ++ ascii " \\\\") = tailToks cells ∧
      Sealed texCat ((cells.map escape).flatMap (ascii " & " ++ ·) ++ ascii " \\\\") := by
  induction cells with
  | nil => decide
  | cons c cells ih =>
      have hsep : lex texCat (ascii " & ") = [.chr 32, .chr 38, .chr 32] ∧
          Sealed texCat (ascii " & ") := by decide
      have hcell := lex_seq (lex_seq hsep (lex_escape c)) ih
      rw [List.map_cons, List.flatMap_cons, List.append_assoc, tailToks_cons]
      exact hcell

theorem lex_row (cells : List Bytes) :
    lex texCat (Line.cells (cells.map escape)).text = rowToks cells ∧
      Sealed texCat (Line.cells (cells.map escape)).text := by
  cases cells with
  | nil => exact lex_tail []
  | cons c cells =>
      rw [Line.text, List.map_cons, tableConcat_cons, List.append_assoc]
      exact lex_seq (lex_escape c) (lex_tail cells)

theorem letters_name (r : Rule) : latex.Letters r.name := by
  cases r <;> exact ⟨by decide, by decide⟩

/-- The tokens of a line, in front of the end of the line. -/
theorem lex_line (n : Nat) (l : TextLine) (rest : Bytes) :
    lex texCat (nl :: (List.replicate n 32 ++ l.line.text) ++ nl :: rest)
      = l.toks n ++ lex texCat (nl :: rest) := by
  obtain ⟨hlayout, hsealed⟩ := lex_layout n
  rw [← List.cons_append, List.append_assoc, lex_append_of_sealed hsealed, hlayout]
  cases l with
  | rule r =>
      have hword : lex texCat (latex.control r.name ++ nl :: rest)
          = .word r.name :: lex texCat (nl :: rest) :=
        Markup.lex_control_append (letters_name r) (noLetter_nl rest)
      change layout n ++ lex texCat (latex.control r.name ++ nl :: rest) = _
      rw [hword, TextLine.toks, List.append_assoc, List.singleton_append]
  | row cells =>
      obtain ⟨hrow, hsealed⟩ := lex_row cells
      rw [TextLine.line, lex_append_of_sealed hsealed, hrow, TextLine.toks, List.append_assoc]

/-- The tokens of all lines. -/
theorem lex_textLines (n : Nat) (rest : Bytes) (ls : List TextLine) :
    lex texCat ((ls.map TextLine.line).flatMap (fun l => nl :: (List.replicate n 32 ++ l.text))
        ++ nl :: rest)
      = ls.flatMap (TextLine.toks n) ++ lex texCat (nl :: rest) := by
  induction ls with
  | nil => rfl
  | cons l ls ih =>
      rw [List.map_cons, List.flatMap_cons, List.flatMap_cons, List.append_assoc, List.append_assoc,
        ← ih]
      -- the next line begins with its line break
      cases ls with
      | nil => exact lex_line n l rest
      | cons m ls => exact lex_line n l _

theorem pad_eq (ctx : Ctx) : ∃ n, pad ctx = List.replicate n 32 := by
  unfold pad
  split
  · exact ⟨_, rfl⟩
  · exact ⟨0, rfl⟩

theorem lex_body {t : TextTable} {g : Grid} (hg : g.allLines t.booktabs = t.allLines.map TextLine.line)
    (ctx : Ctx) :
    ∃ n m, lex texCat (g.body t.booktabs ctx) = t.allLines.flatMap (TextLine.toks n) ++ layout m := by
  obtain ⟨n, hn⟩ := pad_eq (deeper ctx 1)
  obtain ⟨m, hm⟩ := pad_eq ctx
  exact ⟨n, m, by rw [Grid.body, hg, hn, hm, lex_textLines, (lex_layout m).1]⟩

/-! ## Reading a row -/

/-- A text without the blanks at its ends. -/
def trimText (u : Bytes) : Bytes := strip blank u

theorem escToks_blank {c : Byte} (hc : blank c = true) : escToks c = [.chr c] := by
  have hcases : c = 32 ∨ c = 9 ∨ c = nl ∨ c = cr := by
    simpa [blank, isBlank, or_assoc] using hc
  rcases hcases with rfl | rfl | rfl | rfl <;> decide

/-- No text draws a rule. -/
theorem ruleOf_escToks (c : Byte) : ∀ t ∈ escToks c, ruleOf t = none := by
  have hword : ∀ w ∈ escWords, ∀ t ∈ [Tok.word w, .opening, .closing], ruleOf t = none := by decide
  rcases escToks_cases c with ⟨w, hw, -, htoks⟩ | ⟨-, htoks⟩ | ⟨-, -, htoks⟩
  · rw [htoks]
    exact hword w hw
  · rw [htoks]
    exact List.forall_mem_singleton.mpr rfl
  · rw [htoks]
    exact List.forall_mem_singleton.mpr rfl

theorem not_blank_of_first {c : Byte} (hc : ¬ blank c = true) {t : Tok Byte}
    (ht : ∀ d, t = .chr d → d = c) : ¬ isBlank t = true := by
  cases t with
  | chr d =>
      rw [ht d rfl]
      exact hc
  | _ => exact Bool.false_ne_true

theorem escToks_last {c : Byte} (hc : ¬ blank c = true) :
    ∃ r t, escToks c = r ++ [t] ∧ ¬ isBlank t = true := by
  rcases escToks_cases c with ⟨w, -, -, htoks⟩ | ⟨-, htoks⟩ | ⟨-, -, htoks⟩
  · exact ⟨[.word w, .opening], .closing, htoks, Bool.false_ne_true⟩
  · exact ⟨[], .sym c, htoks, Bool.false_ne_true⟩
  · exact ⟨[], .chr c, htoks, hc⟩

theorem cellText_escToks (u : Bytes) : cellText (u.flatMap escToks) = escape (trimText u) := by
  have hpos : ∀ c, blank c = true → ∀ t ∈ escToks c, isBlank t = true := by
    intro c hc t ht
    rw [escToks_blank hc] at ht
    rw [List.mem_singleton.mp ht]
    exact hc
  have hfirst : ∀ c, ¬ blank c = true → ∃ t r, escToks c = t :: r ∧ ¬ isBlank t = true := by
    intro c hc
    obtain ⟨t, r, hcons, hchr⟩ := escToks_first c
    exact ⟨t, r, hcons, not_blank_of_first hc hchr⟩
  have hstrip := strip_flatMap hpos hfirst (fun c hc => escToks_last hc) u
  rw [cellText, hstrip, spell_escToks, trimText]

theorem cellText_space_left (read : List (Tok Byte)) :
    cellText ([.chr 32] ++ read) = cellText read := by
  rw [cellText, cellText, strip_append_left (by decide)]

theorem cellText_space_right (read : List (Tok Byte)) :
    cellText (read ++ [.chr 32]) = cellText read := by
  rw [cellText, cellText, strip_append_right _ (by decide)]

/-- The tokens of one byte of text stay in the cell. -/
theorem tabStep_escToks (rows : List (List Bytes)) (row : List Bytes) (read : List (Tok Byte))
    (c : Byte) :
    (escToks c).foldlM tabStep (rows, .cell row 0 read)
      = some (rows, .cell row 0 (read ++ escToks c)) := by
  have hwords : ∀ w ∈ escWords, ruleOf (.word w) = none := by decide
  have hspecial : (38 : Byte) ∈ ascii "&%$#_{}" ∧ bsl ∉ ascii "&%$#_{}" := by decide
  rcases escToks_cases c with ⟨w, hw, -, htoks⟩ | ⟨hc, htoks⟩ | ⟨-, hc, htoks⟩
  · have hrule := hwords w hw
    simp [htoks, tabStep, cellStep, plainStep, hrule]
  · have hne : c ≠ bsl := by
      rintro rfl
      exact hspecial.2 hc
    simp [htoks, tabStep, cellStep, plainStep, ruleOf, hne]
  · have hne : c ≠ 38 := by
      rintro rfl
      exact hc hspecial.1
    simp [htoks, tabStep, cellStep, plainStep, ruleOf, hne]

theorem run_cell (rows : List (List Bytes)) (row : List Bytes) (u : Bytes) :
    ∀ read : List (Tok Byte), (u.flatMap escToks).foldlM tabStep (rows, .cell row 0 read)
      = some (rows, .cell row 0 (read ++ u.flatMap escToks)) := by
  induction u with
  | nil => simp
  | cons c u ih =>
      intro read
      rw [List.flatMap_cons, List.foldlM_append, tabStep_escToks]
      change (u.flatMap escToks).foldlM tabStep _ = _
      rw [ih, List.append_assoc]

/-- Behind a cell the rest of its row is read. -/
theorem run_tail (rows : List (List Bytes)) (cells : List Bytes) :
    ∀ (row : List Bytes) (read : List (Tok Byte)),
      (tailToks cells).foldlM tabStep (rows, .cell row 0 read)
        = some (rows ++ [row ++ cellText read :: cells.map fun c => escape (trimText c)],
          .fresh true) := by
  induction cells with
  | nil =>
      intro row read
      have hend : (tailToks []).foldlM tabStep (rows, .cell row 0 read)
          = some (rows ++ [row ++ [cellText (read ++ [.chr 32])]], .fresh true) := rfl
      rw [hend, cellText_space_right]
      rfl
  | cons c cells ih =>
      intro row read
      have hsep : ([.chr 32, .chr 38, .chr 32] : List (Tok Byte)).foldlM tabStep
          (rows, .cell row 0 read)
          = some (rows, .cell (row ++ [cellText (read ++ [.chr 32])]) 0 [.chr 32]) := rfl
      rw [tailToks_cons, List.foldlM_append, List.foldlM_append, hsep, Option.bind_eq_bind,
        Option.bind_some, run_cell, Option.bind_some, ih,
        cellText_space_left, cellText_space_right, cellText_escToks, List.append_assoc]
      rfl

/-- In front of a row blanks are skipped. -/
theorem run_start (rows : List (List Bytes)) (star bracket : Bool) {ts : List (Tok Byte)}
    (h : ∀ t ∈ ts, isBlank t = true) :
    ts.foldlM tabStep (rows, .start star bracket) = some (rows, .start star bracket) := by
  induction ts with
  | nil => rfl
  | cons t ts ih =>
      have ht : tabStep (rows, .start star bracket) t = some (rows, .start star bracket) :=
        if_pos (h t List.mem_cons_self)
      rw [List.foldlM_cons, ht]
      exact ih fun u hu => h u (List.mem_cons_of_mem t hu)

theorem run_layout (rows : List (List Bytes)) (star bracket : Bool) (n : Nat) :
    (layout n).foldlM tabStep (rows, .start star bracket) = some (rows, .start star bracket) :=
  run_start rows star bracket (List.forall_mem_map.mpr (blank_layout n))

/-- So are those at the head of a cell. -/
theorem run_lead (rows : List (List Bytes)) (star bracket : Bool) (ts : List (Tok Byte)) (u : Bytes) :
    (u.flatMap escToks ++ ts).foldlM tabStep (rows, .start star bracket)
      = ((u.dropWhile blank).flatMap escToks ++ ts).foldlM tabStep (rows, .start star bracket) := by
  induction u with
  | nil => rfl
  | cons c u ih =>
      by_cases hc : blank c = true
      · have hskip := run_start rows star bracket (List.forall_mem_singleton.mpr hc)
        rw [List.dropWhile_cons_of_pos hc, List.flatMap_cons, escToks_blank hc, List.append_assoc,
          List.foldlM_append, hskip, ← ih]
        rfl
      · rw [List.dropWhile_cons_of_neg hc]

/-- A row whose first cell is not taken for an argument is read as its cells. -/
theorem run_row (rows : List (List Bytes)) {looks : Bool} {c : Bytes}
    (h : (looks && opensArg c) = false) (cells : List Bytes) :
    (rowToks (c :: cells)).foldlM tabStep (rows, .fresh looks)
      = some (rows ++ [(c :: cells).map fun c => escape (trimText c)], .fresh true) := by
  have hdrop : trimText (c.dropWhile blank) = trimText c := by
    rw [trimText, strip, List.dropWhile_idempotent]
    rfl
  rw [rowToks, TabPlace.fresh, run_lead, List.map_cons, ← hdrop]
  rw [opensArg] at h
  cases hu : c.dropWhile blank with
  | nil =>
      -- an empty cell: the reader is in front of the row until its first separator
      have hsame : (tailToks cells).foldlM tabStep (rows, .start looks looks)
          = (tailToks cells).foldlM tabStep (rows, .cell [] 0 []) := by
        cases cells <;> cases looks <;> rfl
      rw [List.flatMap_nil, List.nil_append, hsame, run_tail]
      rfl
  | cons b u =>
      obtain ⟨t, r, hcons, hchr⟩ := escToks_first b
      have hrule : ruleOf t = none := ruleOf_escToks b t (by rw [hcons]; exact List.mem_cons_self)
      have hb : ¬ blank b = true := by
        have hhead := List.head_dropWhile_not blank (l := c) (by rw [hu]; exact List.cons_ne_nil b u)
        simpa [hu] using hhead
      -- the first token of the cell begins it
      have hfirst : tabStep (rows, .start looks looks) t = tabStep (rows, .cell [] 0 []) t := by
        rw [hu] at h
        have hplain : looks = true → b ≠ 42 ∧ b ≠ lbr := by
          intro hlooks
          simpa [hlooks] using h
        have hstar : ¬ (looks = true ∧ t = .chr 42) := fun ht =>
          (hplain ht.1).1 (hchr 42 ht.2).symm
        have hbracket : ¬ (looks = true ∧ t = .chr lbr) := fun ht =>
          (hplain ht.1).2 (hchr lbr ht.2).symm
        rw [tabStep, if_neg (not_blank_of_first hb hchr), if_neg hstar, if_neg hbracket, hrule]
        rfl
      have hcell := run_cell rows [] (b :: u) []
      rw [List.nil_append, List.flatMap_cons, hcons, List.cons_append, List.foldlM_cons, ← hfirst,
        ← List.foldlM_cons, ← List.cons_append, ← hcons, ← List.flatMap_cons] at hcell
      rw [List.foldlM_append, hcell, Option.bind_eq_bind, Option.bind_some, run_tail, cellText_escToks]
      rfl

/-! ## Reading a table -/

theorem ruleOf_name (r : Rule) : ruleOf (.word r.name) = some r := by cases r <;> decide

theorem tabStep_rule (rows : List (List Bytes)) (star bracket : Bool) (r : Rule) :
    tabStep (rows, .start star bracket) (.word r.name) = some (rows, .fresh r.looks) := by
  have hblank : ¬ isBlank (.word r.name) = true := Bool.false_ne_true
  have hstar : ¬ (star = true ∧ Tok.word r.name = .chr 42) := fun h => nomatch h.2
  have hbracket : ¬ (bracket = true ∧ Tok.word r.name = .chr lbr) := fun h => nomatch h.2
  rw [tabStep, if_neg hblank, if_neg hstar, if_neg hbracket, ruleOf_name]

/-- The cells of rows, each as it is read. -/
def readRows (rows : List (List Bytes)) : List (List Bytes) :=
  rows.map fun cells => cells.map fun c => escape (trimText c)

theorem run_ruleLine (n : Nat) (rows : List (List Bytes)) (looks : Bool) (r : Rule) :
    (TextLine.toks n (.rule r)).foldlM tabStep (rows, .fresh looks) = some (rows, .fresh r.looks) := by
  rw [TextLine.toks, TabPlace.fresh, List.foldlM_append, run_layout, Option.bind_eq_bind,
    Option.bind_some, List.foldlM_cons, tabStep_rule]
  rfl

theorem run_rowLine (n : Nat) (rows : List (List Bytes)) {looks : Bool} {c : Bytes}
    (h : (looks && opensArg c) = false) (cells : List Bytes) :
    (TextLine.toks n (.row (c :: cells))).foldlM tabStep (rows, .fresh looks)
      = some (rows ++ readRows [c :: cells], .fresh true) := by
  rw [TextLine.toks, List.foldlM_append, TabPlace.fresh, run_layout]
  exact run_row rows h cells

/-- The rows of legible lines are read. -/
theorem run_lines (n : Nat) :
    ∀ (ls : List TextLine) (looks : Bool) (rows : List (List Bytes)), legibleFrom looks ls = true →
      ∃ looks', (ls.flatMap (TextLine.toks n)).foldlM tabStep (rows, .fresh looks)
        = some (rows ++ readRows (ls.filterMap TextLine.cells?), .fresh looks')
  | [], looks, rows, _ => by
      refine ⟨looks, ?_⟩
      rw [readRows, List.filterMap_nil, List.map_nil, List.append_nil]
      rfl
  | .rule r :: ls, looks, rows, h => by
      obtain ⟨looks', ih⟩ := run_lines n ls r.looks rows h
      exact ⟨looks', by rw [List.flatMap_cons, List.foldlM_append, run_ruleLine]; exact ih⟩
  | .row [] :: _, _, _, h => absurd h Bool.false_ne_true
  | .row (c :: cells) :: ls, looks, rows, h => by
      rw [legibleFrom, Bool.and_eq_true, Bool.not_eq_true'] at h
      obtain ⟨looks', ih⟩ := run_lines n ls true (rows ++ readRows [c :: cells]) h.2
      refine ⟨looks', ?_⟩
      rw [List.flatMap_cons, List.foldlM_append, run_rowLine n rows h.1]
      rw [List.append_assoc] at ih
      exact ih

/-! ## What a command takes is missing -/

/-- What is no blank. -/
def ink (s : Bytes) : Nat := s.countP fun c => !blank c

theorem ink_append (s t : Bytes) : ink (s ++ t) = ink s + ink t := List.countP_append

/-- The cells of a row and what separates and ends them. -/
def cellsInk (cells : List Bytes) : Nat := (cells.map fun c => ink c + 1).sum

def rowInk (cells : List Bytes) : Nat := cellsInk cells + 1

def rowsInk (rows : List (List Bytes)) : Nat := (rows.map rowInk).sum

def TabPlace.ink : TabPlace → Nat
  | cell row _ read => cellsInk row + Latex.ink (spell read)
  | _ => 0

/-- What has been read. -/
def inkSoFar (q : List (List Bytes) × TabPlace) : Nat := rowsInk q.1 + q.2.ink

/-- The ink of a token; rules are not part of a row. -/
def weight (t : Tok Byte) : Nat := if (ruleOf t).isSome then 0 else ink (spell [t])

theorem weight_of_not_rule {t : Tok Byte} (ht : ruleOf t = none) : weight t = ink (spell [t]) := by
  rw [weight, ht]
  rfl

theorem rowsInk_append (a b : List (List Bytes)) : rowsInk (a ++ b) = rowsInk a + rowsInk b := by
  rw [rowsInk, rowsInk, rowsInk, List.map_append, List.sum_append]

theorem cellsInk_append (a b : List Bytes) : cellsInk (a ++ b) = cellsInk a + cellsInk b := by
  rw [cellsInk, cellsInk, cellsInk, List.map_append, List.sum_append]

theorem ink_blank {ts : List (Tok Byte)} (h : ∀ t ∈ ts, isBlank t = true) : ink (spell ts) = 0 := by
  refine List.countP_eq_zero.mpr fun c hc => ?_
  obtain ⟨t, ht, hc⟩ := List.mem_flatMap.mp hc
  have hblank := h t ht
  cases t with
  | chr d =>
      rw [List.mem_singleton.mp hc]
      simpa [blank] using hblank
  | _ => exact absurd hblank Bool.false_ne_true

theorem ink_cellText (read : List (Tok Byte)) : ink (cellText read) = ink (spell read) := by
  obtain ⟨a, b, hread, ha, hb⟩ := strip_decomp isBlank read
  have hspell := congrArg (fun ts => ink (spell ts)) hread
  simp only [spell_append, ink_append, ink_blank ha, ink_blank hb, Nat.zero_add, Nat.add_zero] at hspell
  exact hspell.symm

/-- A token that stays in a cell. -/
theorem ink_push (row : List Bytes) (depth : Nat) (read : List (Tok Byte)) {t : Tok Byte}
    (ht : ruleOf t = none) :
    (TabPlace.cell row depth (read ++ [t])).ink = cellsInk row + ink (spell read) + weight t := by
  rw [TabPlace.ink, spell_append, ink_append, weight_of_not_rule ht, ← Nat.add_assoc]

/-- A step to `q` from the rows `rows` and a place of the ink `n`, over a token of the ink
`w`: no row is complete, and the place has at most the ink of both, or a row is, and it has
all of it. -/
def Gains (rows : List (List Bytes)) (n w : Nat) (q : List (List Bytes) × TabPlace) : Prop :=
  (q.1 = rows ∧ q.2.ink ≤ n + w) ∨ ∃ r, r ≠ [] ∧ q = (rows ++ [r], .fresh true) ∧ rowInk r = n + w

theorem plainStep_gains {rows : List (List Bytes)} {row : List Bytes} {depth : Nat}
    {read : List (Tok Byte)} {t : Tok Byte} {q : List (List Bytes) × TabPlace}
    (h : plainStep rows row depth read t = some q) :
    Gains rows (cellsInk row + ink (spell read)) (weight t) q := by
  have hlast : cellsInk (row ++ [cellText read]) = cellsInk row + ink (spell read) + 1 := by
    have hone : cellsInk [cellText read] = ink (cellText read) + 1 := rfl
    rw [cellsInk_append, hone, ink_cellText, ← Nat.add_assoc]
  rw [plainStep] at h
  split at h
  · next hcell =>
      obtain rfl := Option.some.inj h
      rw [hcell.2]
      exact Or.inl ⟨rfl, le_of_eq hlast⟩
  · split at h
    · next hrow =>
        obtain rfl := Option.some.inj h
        refine Or.inr ⟨_, List.append_ne_nil_of_right_ne_nil row (List.cons_ne_nil _ _), rfl, ?_⟩
        rw [hrow.2, rowInk, hlast]
        rfl
    · split at h
      · exact nomatch h
      · next hrule =>
          obtain rfl := Option.some.inj h
          have hnone : ruleOf t = none := Option.not_isSome_iff_eq_none.mp hrule
          exact Or.inl ⟨rfl, le_of_eq (ink_push row depth read hnone)⟩

theorem cellStep_plain {rows : List (List Bytes)} {row : List Bytes} {depth : Nat}
    {read : List (Tok Byte)} {t : Tok Byte} (ho : t ≠ .opening) (hc : t ≠ .closing) :
    cellStep rows row depth read t = plainStep rows row depth read t := by
  cases t with
  | opening => exact absurd rfl ho
  | closing => exact absurd rfl hc
  | _ => cases depth <;> rfl

theorem cellStep_gains {rows : List (List Bytes)} {row : List Bytes} {depth : Nat}
    {read : List (Tok Byte)} {t : Tok Byte} {q : List (List Bytes) × TabPlace}
    (h : cellStep rows row depth read t = some q) :
    Gains rows (cellsInk row + ink (spell read)) (weight t) q := by
  by_cases ho : t = .opening
  · subst ho
    obtain rfl := Option.some.inj h
    exact Or.inl ⟨rfl, le_of_eq (ink_push row (depth + 1) read rfl)⟩
  · by_cases hc : t = .closing
    · subst hc
      cases depth with
      | zero => exact nomatch h
      | succ depth =>
          obtain rfl := Option.some.inj h
          exact Or.inl ⟨rfl, le_of_eq (ink_push row depth read rfl)⟩
    · rw [cellStep_plain ho hc] at h
      exact plainStep_gains h

/-- **What one token does**, wherever the reader stands. -/
theorem tabStep_gains {q q' : List (List Bytes) × TabPlace} {t : Tok Byte} (h : tabStep q t = some q') :
    Gains q.1 q.2.ink (weight t) q' := by
  obtain ⟨rows, p⟩ := q
  cases p with
  | start star bracket =>
      rw [tabStep] at h
      split at h
      · obtain rfl := Option.some.inj h
        exact Or.inl ⟨rfl, Nat.zero_le _⟩
      · split at h
        · obtain rfl := Option.some.inj h
          exact Or.inl ⟨rfl, Nat.zero_le _⟩
        · split at h
          · obtain rfl := Option.some.inj h
            exact Or.inl ⟨rfl, Nat.zero_le _⟩
          · split at h
            · obtain rfl := Option.some.inj h
              exact Or.inl ⟨rfl, Nat.zero_le _⟩
            · exact cellStep_gains h
  | arg depth read =>
      rw [tabStep] at h
      split at h
      · exact nomatch h
      · obtain rfl := Option.some.inj h
        exact Or.inl ⟨rfl, Nat.zero_le _⟩
      · obtain rfl := Option.some.inj h
        exact Or.inl ⟨rfl, Nat.zero_le _⟩
  | cell row depth read => exact cellStep_gains h

theorem tabStep_ink (q : List (List Bytes) × TabPlace) (t : Tok Byte)
    (q' : List (List Bytes) × TabPlace) (h : tabStep q t = some q') : inkSoFar q' ≤ inkSoFar q + weight t := by
  rcases tabStep_gains h with ⟨hrows, hink⟩ | ⟨r, -, rfl, hink⟩
  · rw [inkSoFar, inkSoFar, hrows]
    omega
  · have hone : rowsInk [r] = rowInk r := rfl
    have hfresh : (TabPlace.fresh true).ink = 0 := rfl
    rw [inkSoFar, inkSoFar, rowsInk_append, hone, hink, hfresh]
    omega

/-- A row that has been read has a cell. -/
theorem tabStep_nonempty (q : List (List Bytes) × TabPlace) (t : Tok Byte)
    (q' : List (List Bytes) × TabPlace) (h : tabStep q t = some q') (hq : ∀ r ∈ q.1, r ≠ []) :
    ∀ r ∈ q'.1, r ≠ [] := by
  rcases tabStep_gains h with ⟨hrows, -⟩ | ⟨r, hr, rfl, -⟩
  · rwa [hrows]
  · exact List.forall_mem_append.mpr ⟨hq, List.forall_mem_singleton.mpr hr⟩

/-- The ink of tokens. -/
def toksInk (ts : List (Tok Byte)) : Nat := (ts.map weight).sum

theorem toksInk_append (a b : List (Tok Byte)) : toksInk (a ++ b) = toksInk a + toksInk b := by
  rw [toksInk, toksInk, toksInk, List.map_append, List.sum_append]

theorem toksInk_of_no_rule {ts : List (Tok Byte)} (h : ∀ t ∈ ts, ruleOf t = none) :
    toksInk ts = ink (spell ts) := by
  induction ts with
  | nil => rfl
  | cons t ts ih =>
      have ih := ih fun u hu => h u (List.mem_cons_of_mem t hu)
      have ht := weight_of_not_rule (h t List.mem_cons_self)
      rw [toksInk] at ih ⊢
      rw [List.map_cons, List.sum_cons, ih, ht, ← ink_append, ← spell_append, List.singleton_append]

theorem toksInk_text (u : Bytes) : toksInk (u.flatMap escToks) = ink (escape u) := by
  rw [toksInk_of_no_rule, spell_escToks]
  intro t ht
  obtain ⟨c, -, ht⟩ := List.mem_flatMap.mp ht
  exact ruleOf_escToks c t ht

theorem toksInk_layout (n : Nat) : toksInk (layout n) = 0 := by
  have hblank : ∀ t ∈ layout n, isBlank t = true := List.forall_mem_map.mpr (blank_layout n)
  rw [toksInk_of_no_rule, ink_blank hblank]
  exact List.forall_mem_map.mpr fun c hc => rfl

theorem toksInk_tail (cells : List Bytes) :
    toksInk (tailToks cells) = cellsInk (cells.map escape) + 2 := by
  induction cells with
  | nil => decide
  | cons c cells ih =>
      have hsep : toksInk [.chr 32, .chr 38, .chr 32] = 1 := by decide
      rw [tailToks_cons, toksInk_append, toksInk_append, hsep, toksInk_text, ih, cellsInk,
        cellsInk, List.map_cons, List.map_cons, List.sum_cons]
      omega

theorem toksInk_row (c : Bytes) (cells : List Bytes) :
    toksInk (rowToks (c :: cells)) = rowInk ((c :: cells).map escape) := by
  rw [rowToks, toksInk_append, toksInk_text, toksInk_tail, rowInk, cellsInk, cellsInk, List.map_cons,
    List.map_cons, List.sum_cons]
  omega

/-- The ink of lines whose rows have cells is that of the rows. -/
theorem toksInk_lines (n : Nat) :
    ∀ ls : List TextLine, (∀ r ∈ ls.filterMap TextLine.cells?, r ≠ []) →
      toksInk (ls.flatMap (TextLine.toks n))
        = rowsInk ((ls.filterMap TextLine.cells?).map (·.map escape))
  | [], _ => rfl
  | .rule r :: ls, h => by
      have hrule : weight (.word r.name) = 0 := by rw [weight, ruleOf_name]; rfl
      have hline : toksInk (TextLine.toks n (.rule r)) = 0 := by
        rw [TextLine.toks, toksInk_append, toksInk_layout, toksInk, List.map_singleton, hrule]
        rfl
      rw [List.flatMap_cons, toksInk_append, hline, Nat.zero_add]
      exact toksInk_lines n ls h
  | .row [] :: ls, h => absurd rfl (h [] List.mem_cons_self)
  | .row (c :: cells) :: ls, h => by
      have ih := toksInk_lines n ls fun r hr => h r (List.mem_cons_of_mem _ hr)
      rw [List.flatMap_cons, toksInk_append, TextLine.toks, toksInk_append, toksInk_layout, toksInk_row,
        Nat.zero_add, ih]
      rfl

theorem run_ink {q q' : List (List Bytes) × TabPlace} {ts : List (Tok Byte)}
    (h : ts.foldlM tabStep q = some q') : inkSoFar q' ≤ inkSoFar q + toksInk ts :=
  foldlM_potential tabStep_ink h

/-- A star or a bracket that is taken for an argument is missing in the row. -/
theorem run_taken (rows : List (List Bytes)) {c : Bytes} (hc : opensArg c = true) (cells : List Bytes)
    {q : List (List Bytes) × TabPlace}
    (h : (rowToks (c :: cells)).foldlM tabStep (rows, .fresh true) = some q) :
    inkSoFar q < rowsInk rows + toksInk (rowToks (c :: cells)) := by
  have hsplit : toksInk (c.flatMap escToks) = toksInk ((c.takeWhile blank).flatMap escToks)
      + toksInk ((c.dropWhile blank).flatMap escToks) := by
    rw [← toksInk_append, ← List.flatMap_append, List.takeWhile_append_dropWhile]
  rw [rowToks, toksInk_append, hsplit]
  rw [rowToks, TabPlace.fresh, run_lead] at h
  rw [opensArg] at hc
  cases hu : c.dropWhile blank with
  | nil =>
      rw [hu] at hc
      exact absurd hc Bool.false_ne_true
  | cons b u =>
      rw [hu] at hc h
      have hb : b = 42 ∨ b = lbr := by simpa using hc
      obtain ⟨p, hp, hink⟩ : ∃ p, tabStep (rows, .start true true) (.chr b) = some (rows, p) ∧
          p.ink = 0 := by
        rcases hb with rfl | rfl
        · exact ⟨_, rfl, rfl⟩
        · exact ⟨_, rfl, rfl⟩
      have hone : escToks b = [.chr b] ∧ toksInk [.chr b] = 1 := by
        rcases hb with rfl | rfl <;> decide
      rw [List.flatMap_cons, hone.1, List.append_assoc, List.singleton_append, List.foldlM_cons,
        hp] at h
      have hrest := run_ink h
      have hstart : inkSoFar (rows, p) = rowsInk rows := by rw [inkSoFar, hink, Nat.add_zero]
      rw [hstart, toksInk_append] at hrest
      rw [List.flatMap_cons, hone.1, toksInk_append, hone.2]
      omega

/-- Where the lines are not legible, something is missing at their end. -/
theorem run_short (n : Nat) :
    ∀ (ls : List TextLine) (looks : Bool) (rows : List (List Bytes)) (q : List (List Bytes) × TabPlace),
      (∀ r ∈ ls.filterMap TextLine.cells?, r ≠ []) → ¬ legibleFrom looks ls = true →
        (ls.flatMap (TextLine.toks n)).foldlM tabStep (rows, .fresh looks) = some q →
          inkSoFar q < rowsInk rows + toksInk (ls.flatMap (TextLine.toks n))
  | [], _, _, _, _, hl, _ => absurd rfl hl
  | .rule r :: ls, looks, rows, q, hne, hl, h => by
      have hrule : (TextLine.toks n (.rule r)).foldlM tabStep (rows, .fresh looks)
          = some (rows, .fresh r.looks) := run_ruleLine n rows looks r
      rw [List.flatMap_cons, List.foldlM_append, hrule] at h
      have ih := run_short n ls r.looks rows q hne hl h
      rw [List.flatMap_cons, toksInk_append]
      omega
  | .row [] :: _, _, _, _, hne, _, _ => absurd rfl (hne [] List.mem_cons_self)
  | .row (c :: cells) :: ls, looks, rows, q, hne, hl, h => by
      rw [List.flatMap_cons, List.foldlM_append] at h
      obtain ⟨p, hp, hq⟩ := Option.bind_eq_some_iff.mp h
      rw [List.flatMap_cons, toksInk_append]
      cases htaken : looks && opensArg c with
      | true =>
          obtain ⟨rfl, hc⟩ := (Bool.and_eq_true _ _).mp htaken
          rw [TextLine.toks, List.foldlM_append, TabPlace.fresh, run_layout] at hp
          have hrow := run_taken rows hc cells hp
          have hrest := run_ink hq
          rw [TextLine.toks, toksInk_append]
          omega
      | false =>
          have hrow := run_rowLine n rows htaken cells
          have hink := run_ink hp
          rw [hp] at hrow
          obtain rfl := Option.some.inj hrow
          rw [legibleFrom, htaken, Bool.not_false, Bool.true_and] at hl
          have ih := run_short n ls true _ q (fun r hr => hne r (List.mem_cons_of_mem _ hr)) hl hq
          have hstart : ∀ rows looks, inkSoFar (rows, .fresh looks) = rowsInk rows := fun _ _ => rfl
          rw [hstart, hstart] at hink
          omega

/-! ## The table -/

theorem escape_injective : Function.Injective escape := by
  intro u v h
  have hread := congrArg readBack h
  rw [← encodeAll_chr, ← encodeAll_chr, readBack_encodeAll, readBack_encodeAll] at hread
  exact List.map_injective_iff.mpr (fun _ _ => Atom.chr.inj) (Option.some.inj hread)

theorem ink_trimText (u : Bytes) : ink (escape (trimText u)) = ink (escape u) := by
  rw [← cellText_escToks, ink_cellText, spell_escToks]

theorem rows_allLines (t : TextTable) : t.allLines.filterMap TextLine.cells? = t.rows := by
  rw [TextTable.allLines, TextTable.headerLines, TextTable.rows]
  cases t.header <;> simp [List.filterMap_cons, TextLine.cells?]

theorem rowsInk_map {f : Bytes → Bytes} (hf : ∀ c, ink (f c) = ink (escape c))
    (rows : List (List Bytes)) :
    rowsInk (rows.map (·.map f)) = rowsInk (rows.map (·.map escape)) := by
  simp only [rowsInk, rowInk, cellsInk, List.map_map, Function.comp_def, hf]

theorem readTabular_of_legible {t : TextTable} {body : Bytes} {n m : Nat}
    (hbody : lex texCat body = t.allLines.flatMap (TextLine.toks n) ++ layout m)
    (h : t.legible = true) : readTabular body = some (readRows t.rows) := by
  obtain ⟨looks, hrun⟩ := run_lines n t.allLines false [] h
  rw [rows_allLines, List.nil_append] at hrun
  rw [readTabular, hbody, List.foldlM_append, hrun, Option.bind_eq_bind, Option.bind_some,
    TabPlace.fresh, run_layout]

/-- What is read has all the ink of the cells only if the table is legible. -/
theorem legible_of_readTabular {t : TextTable} {body : Bytes} {n m : Nat}
    (hbody : lex texCat body = t.allLines.flatMap (TextLine.toks n) ++ layout m)
    {f : Bytes → Bytes} (hf : ∀ c, ink (f c) = ink (escape c))
    (h : readTabular body = some (t.rows.map (·.map f))) : t.legible = true := by
  rw [readTabular] at h
  split at h
  · next rows star bracket hrun =>
      obtain rfl := Option.some.inj h
      rw [hbody] at hrun
      -- every row that is read has a cell, and so has every row that is written
      have hread := foldlM_invariant (I := fun q => ∀ r ∈ q.1, r ≠ []) tabStep_nonempty hrun
        fun r hr => absurd hr List.not_mem_nil
      have hne : ∀ r ∈ t.allLines.filterMap TextLine.cells?, r ≠ [] := by
        rw [rows_allLines]
        rintro r hr rfl
        exact hread [] (List.mem_map.mpr ⟨[], hr, rfl⟩) rfl
      have hlines := toksInk_lines n t.allLines hne
      rw [rows_allLines, ← rowsInk_map hf] at hlines
      rw [List.foldlM_append] at hrun
      obtain ⟨q, hq, hrun⟩ := Option.bind_eq_some_iff.mp hrun
      have hend := run_ink hrun
      rw [toksInk_layout] at hend
      by_contra hl
      have hshort := run_short n t.allLines false [] q hne hl hq
      have hnil : rowsInk [] = 0 := rfl
      have hall : inkSoFar (t.rows.map (·.map f), .start star bracket)
          = rowsInk (t.rows.map (·.map f)) := rfl
      omega
  · exact nomatch h

/-- No cell begins or ends with a blank. -/
def TextTable.trimmed (t : TextTable) : Bool := t.rows.all (·.all fun c => trimText c = c)

theorem readRows_eq_iff (t : TextTable) :
    readRows t.rows = t.rows.map (·.map escape) ↔ t.trimmed = true := by
  rw [readRows, List.map_inj_left, TextTable.trimmed, List.all_eq_true]
  refine forall₂_congr fun cells _ => ?_
  rw [List.map_inj_left, List.all_eq_true]
  exact forall₂_congr fun c _ => escape_injective.eq_iff.trans decide_eq_true_iff.symm

/-- **A table of texts is read back** with the escaped text of its cells, in order and row
by row, exactly where it is legible and LaTeX has no blanks to drop at the ends of a cell;
where it is legible, those blanks are all that it drops. -/
theorem tabular_readTabular_iff (t : TextTable) (ctx : Ctx) :
    ∃ g, tabularGrid renderNode t.cfg (tabularCtx t.resize ctx) = .ok g ∧
      tabularLines renderNode t.cfg ctx
        = .ok (boxed t.resize ctx (g.text t.booktabs (tabularCtx t.resize ctx))) ∧
      (readTabular (g.body t.booktabs (tabularCtx t.resize ctx)) = some (t.rows.map (·.map escape))
        ↔ t.legible = true ∧ t.trimmed = true) ∧
      (readTabular (g.body t.booktabs (tabularCtx t.resize ctx)) = some (readRows t.rows)
        ↔ t.legible = true) := by
  obtain ⟨g, hg, hlines⟩ := tabularGrid_text t (tabularCtx t.resize ctx)
  obtain ⟨n, m, hbody⟩ := lex_body hlines (tabularCtx t.resize ctx)
  refine ⟨g, hg, ?_, ?_, ?_⟩
  · have hcfg : t.cfg.resize = t.resize ∧ t.cfg.booktabs = t.booktabs := ⟨rfl, rfl⟩
    rw [tabularLines_eq, hcfg.1, hcfg.2, hg]
    rfl
  · constructor
    · intro h
      have hl := legible_of_readTabular hbody (fun _ => rfl) h
      rw [readTabular_of_legible hbody hl] at h
      exact ⟨hl, (readRows_eq_iff t).mp (Option.some.inj h)⟩
    · rintro ⟨hl, htrim⟩
      rw [readTabular_of_legible hbody hl, (readRows_eq_iff t).mpr htrim]
  · exact ⟨legible_of_readTabular hbody ink_trimText, readTabular_of_legible hbody⟩

/-- The bracket at the head of a row becomes an argument of the row break before it. -/
theorem tabular_bracket :
    let t : TextTable := ⟨none, none, [.row [ascii "a"], .row [ascii "[b]"]], true, false⟩
    ∃ g, tabularGrid renderNode t.cfg ⟨true, 0⟩ = .ok g ∧
      readTabular (g.body true ⟨true, 0⟩) = some [[ascii "a"], [[]]] ∧
      readTabular (g.body true ⟨true, 0⟩) ≠ some (t.rows.map (·.map escape)) :=
  ⟨⟨ascii "l", none, [.cells [ascii "a"], .cells [ascii "[b]"]]⟩, by decide, by decide, by decide⟩

end Tmg.Latex
