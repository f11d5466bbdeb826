/-
# `Tmg.Latex.Grid` — what `tabular_lines` puts into a table

A table is decided before a line of it is written: the columns, the cells of the header,
and a line for each row, which is a rule or a row of cells (`Grid`).  `tabular_lines` then
writes the grid and nothing else (`tabularBody_eq`).

| | columns, where `cols` is absent |
| :-- | :-- |
| with a header | one for each of its cells |
| without | one for each cell of the first row that is a list |
| no such row | one |

So the columns are counted once and the cells are not counted against them; there are
enough exactly where no row is longer than the one that was looked at (`grid_fits_iff`).
-/
import Tmg.Latex.Total
import Tmg.Latex.Children

namespace Tmg.Latex

open Tmg Lib

/-- A line of a table. -/
inductive Line where
  | rule (cmd : Bytes)
  | cells (cs : List Bytes)
deriving DecidableEq, Repr

/-- A table: the column specification, the cells of the header and the lines of the rows. -/
structure Grid where
  cols : Bytes
  header : Option (List Bytes)
  lines : List Line
deriving DecidableEq, Repr

def Line.text : Line → Bytes
  | rule cmd => cmd
  | cells cs => tableConcat (ascii " & ") cs ++ ascii " \\\\"

def Line.cells? : Line → Option (List Bytes)
  | rule _ => none
  | cells cs => some cs

/-- The header and the rows of cells. -/
def Grid.rows (g : Grid) : List (List Bytes) := g.header.toList ++ g.lines.filterMap Line.cells?

def topRule (booktabs : Bool) : Bytes := if booktabs then ascii "\\toprule" else ascii "\\hline"

def midRule (booktabs : Bool) : Bytes := if booktabs then ascii "\\midrule" else ascii "\\hline"

def botRule (booktabs : Bool) : Bytes := if booktabs then ascii "\\bottomrule" else ascii "\\hline"

/-- The header, with the rule below it. -/
def headLines (booktabs : Bool) : Option (List Bytes) → List Line
  | some cs => [.cells cs, .rule (midRule booktabs)]
  | none => []

/-- All lines between `\begin` and `\end`. -/
def Grid.allLines (booktabs : Bool) (g : Grid) : List Line :=
  [.rule (topRule booktabs)] ++ headLines booktabs g.header ++ g.lines ++ [.rule (botRule booktabs)]

/-- What stands between the column specification and `\end`. -/
def Grid.body (booktabs : Bool) (ctx : Ctx) (g : Grid) : Bytes :=
  (g.allLines booktabs).flatMap (fun l => nl :: (pad (deeper ctx 1) ++ l.text)) ++ nl :: pad ctx

/-- The table, written out. -/
def Grid.text (booktabs : Bool) (ctx : Ctx) (g : Grid) : Bytes :=
  pad ctx ++ beginTag (ascii "tabular") ++ braced g.cols ++ g.body booktabs ctx
    ++ endTag (ascii "tabular")

/-- The lines of a table, put together. -/
theorem tableConcat_grid (booktabs : Bool) (ctx : Ctx) (g : Grid) :
    tableConcat (ascii "\n") ([pad ctx ++ beginTag (ascii "tabular") ++ braced g.cols]
        ++ (g.allLines booktabs).map (fun l => pad (deeper ctx 1) ++ l.text)
        ++ [pad ctx ++ endTag (ascii "tabular")])
      = g.text booktabs ctx := by
  have hnl : ascii "\n" = [nl] := rfl
  rw [List.append_assoc, List.singleton_append, tableConcat_cons, List.flatMap_append, List.flatMap_map,
    Grid.text, Grid.body, hnl]
  simp only [List.append_assoc, List.flatMap_singleton, List.cons_append, List.nil_append]

section

variable (one : Val → Ctx → Except LatexError (Bytes × Bool))

/-- The cells of a row. -/
def gridRow (ctx : Ctx) (what : Bytes) : Val → Except LatexError (List Bytes)
  | .list _ cells => rowCells one ctx what 1 cells
  | _ => .error (.rowNotList what)

/-- The lines of the rows, from the index `i` on. -/
def gridLines (ctx : Ctx) : Nat → List Val → Except LatexError (List Line)
  | _, [] => .ok []
  | i, r :: rows =>
      match r with
      | .nil => if Val.allNil rows then .ok [] else .error (.rowNil i)
      | .rule cmd => do
          let rest ← gridLines ctx (i + 1) rows
          return .rule cmd :: rest
      | r => do
          let cs ← gridRow one ctx (ascii "row #" ++ decimal i) r
          let rest ← gridLines ctx (i + 1) rows
          return .cells cs :: rest

/-- The cells of the header, if there is one. -/
def gridHeader (ctx : Ctx) (header : Val) : Except LatexError (Option (List Bytes)) :=
  if header.truthy then do
    let cs ← gridRow one ctx (ascii "header") header
    return some cs
  else .ok none

/-- What `tabular_lines` writes. -/
def tabularGrid (t : TabCfg Val) (ctx : Ctx) : Except LatexError Grid := do
  let n ← ncols t
  let head ← gridHeader one ctx t.header
  let lines ← gridLines one ctx 1 t.rows
  return ⟨t.cols.getD (List.replicate (n.getD 1) 108), head, lines⟩

/-! ## The lines are written as they are -/

theorem rowStr_eq (ctx : Ctx) (what : Bytes) (row : Val) :
    rowStr one ctx what row = (gridRow one ctx what row).map fun cs => (Line.cells cs).text := by
  cases row with
  | list t cells =>
      rw [rowStr, gridRow]
      cases rowCells one ctx what 1 cells <;> rfl
  | _ => rfl

theorem rowLines_eq (ctx : Ctx) (p1 : Bytes) (rows : List Val) :
    ∀ i : Nat, rowLines one ctx p1 i rows
      = (gridLines one ctx i rows).map fun ls => ls.map fun l => p1 ++ l.text := by
  induction rows with
  | nil => exact fun _ => rfl
  | cons r rows ih =>
      intro i
      have ih := ih (i + 1)
      cases r with
      | nil =>
          rw [rowLines, gridLines]
          split <;> rfl
      | rule cmd =>
          rw [rowLines, gridLines, ih]
          cases gridLines one ctx (i + 1) rows <;> rfl
      | list t cells =>
          have hrow := rowStr_eq one ctx (ascii "row #" ++ decimal i) (.list t cells)
          simp only [rowLines, gridLines, ih, hrow]
          cases gridRow one ctx (ascii "row #" ++ decimal i) (.list t cells) with
          | error err => rfl
          | ok cs => cases gridLines one ctx (i + 1) rows <;> rfl
      | _ => rfl

theorem headerLines_eq (ctx : Ctx) (p1 : Bytes) (booktabs : Bool) (header : Val) :
    headerLines one ctx p1 (midRule booktabs) header
      = (gridHeader one ctx header).map fun h => (headLines booktabs h).map fun l => p1 ++ l.text := by
  unfold headerLines gridHeader
  split
  · rw [rowStr_eq]
    cases gridRow one ctx (ascii "header") header <;> rfl
  · rfl

/-- **`tabular_lines` writes its grid.** -/
theorem tabularBody_eq (t : TabCfg Val) (ctx : Ctx) :
    tabularBody one t ctx = (tabularGrid one t ctx).map (Grid.text t.booktabs ctx) := by
  have hhead := headerLines_eq one ctx (pad (deeper ctx 1)) t.booktabs t.header
  rw [midRule] at hhead
  rw [tabularBody, tabularGrid]
  cases ncols t with
  | error err => rfl
  | ok n =>
      change (headerLines one ctx _ _ t.header >>= _) = Except.map _ (gridHeader one ctx t.header >>= _)
      rw [hhead]
      cases gridHeader one ctx t.header with
      | error err => rfl
      | ok head =>
          change (rowLines one ctx _ 1 t.rows >>= _) = Except.map _ (gridLines one ctx 1 t.rows >>= _)
          rw [rowLines_eq]
          cases gridLines one ctx 1 t.rows with
          | error err => rfl
          | ok lines =>
              refine congrArg Except.ok ?_
              rw [← tableConcat_grid]
              simp only [Grid.allLines, topRule, botRule, List.map_append, List.map_cons, List.map_nil,
                List.append_assoc, List.cons_append, List.nil_append]
              rfl

/-- The context of the lines between `\begin` and `\end`. -/
def tabularCtx (resize : Bool) (ctx : Ctx) : Ctx := if resize then deeper ctx 1 else ctx

/-- What `tabular_lines` writes around a table, if it is to be resized. -/
def boxed (resize : Bool) (ctx : Ctx) (inner : Bytes) : Bytes :=
  if resize then
    pad ctx ++ ascii "\\resizebox" ++ braced (ascii "\\textwidth") ++ braced (ascii "!")
      ++ braced (ascii "%\n" ++ inner ++ ascii "\n" ++ pad ctx)
  else inner

theorem tabularLines_eq (t : TabCfg Val) (ctx : Ctx) :
    tabularLines one t ctx = (tabularGrid one t (tabularCtx t.resize ctx)).map fun g =>
      boxed t.resize ctx (g.text t.booktabs (tabularCtx t.resize ctx)) := by
  rw [tabularLines, tabularCtx]
  cases t.resize with
  | false =>
      rw [if_neg Bool.false_ne_true, if_neg Bool.false_ne_true, tabularBody_eq]
      rfl
  | true =>
      rw [if_pos rfl, if_pos rfl, tabularBody_eq]
      cases tabularGrid one t (deeper ctx 1) <;> rfl

/-! ## Columns and cells -/

/-- `is_list(r)` -/
def isRow : Val → Bool
  | .list _ _ => true
  | _ => false

/-- The number of cells in a row. -/
def cellCount : Val → Nat
  | .list _ cells => (Val.trim cells).length
  | _ => 0

/-- No row has more cells than the one that `tabular_lines` counts the columns from. -/
def even (t : TabCfg Val) : Bool :=
  if t.header.truthy then t.rows.all (cellCount · ≤ cellCount t.header)
  else match t.rows.find? isRow with
    | some r => t.rows.all (cellCount · ≤ cellCount r)
    | none => true

variable {one}

theorem length_rowCells {ctx : Ctx} {what : Bytes} :
    ∀ {cells : List Val} {i : Nat} {cs : List Bytes}, rowCells one ctx what i cells = .ok cs →
      cs.length = (Val.trim cells).length
  | [], i, cs, h => by rw [← Except.ok.inj h]; rfl
  | c :: cells, i, cs, h => by
      rw [rowCells] at h
      rw [Val.trim]
      split at h
      · next hc =>
          split at h
          · next hall =>
              have hnil : Val.allNil (c :: cells) = true := by
                rw [Val.allNil, List.all_cons, hc]
                exact hall
              rw [if_pos hnil, ← Except.ok.inj h]
              rfl
          · cases h
      · next hc =>
          obtain ⟨s, -, h⟩ := bind_eq_ok_iff.mp h
          obtain ⟨rest, hrest, h⟩ := bind_eq_ok_iff.mp h
          have hnil : ¬ Val.allNil (c :: cells) = true := by
            rw [Val.allNil, List.all_cons, Bool.and_eq_true]
            exact fun h => hc h.1
          rw [if_neg hnil, ← Except.ok.inj h, List.length_cons, List.length_cons,
            length_rowCells hrest]

theorem length_gridRow {ctx : Ctx} {what : Bytes} {r : Val} {cs : List Bytes}
    (h : gridRow one ctx what r = .ok cs) : isRow r = true ∧ cs.length = cellCount r := by
  cases r with
  | list t cells => exact ⟨rfl, length_rowCells h⟩
  | _ => exact nomatch h

theorem not_row_of_nil {r : Val} (h : r.isNil = true) : ¬ isRow r = true := by
  cases r with
  | nil => exact Bool.false_ne_true
  | _ => exact absurd h Bool.false_ne_true

theorem cellCount_of_not_row {r : Val} (h : ¬ isRow r = true) : cellCount r = 0 := by
  cases r with
  | list t cells => exact absurd rfl h
  | _ => rfl

/-- A line of cells has as many as its row, and there is one for each row that is a list. -/
theorem length_gridLines {ctx : Ctx} :
    ∀ {rows : List Val} {i : Nat} {ls : List Line}, gridLines one ctx i rows = .ok ls →
      (ls.filterMap Line.cells?).map List.length = (rows.filter isRow).map cellCount
  | [], i, ls, h => by rw [← Except.ok.inj h]; rfl
  | r :: rows, i, ls, h => by
      cases r with
      | nil =>
          rw [gridLines] at h
          split at h
          · next hall =>
              have hnone : rows.filter isRow = [] :=
                List.filter_eq_nil_iff.mpr fun r hr => not_row_of_nil (List.all_eq_true.mp hall r hr)
              rw [← Except.ok.inj h, List.filter_cons_of_neg Bool.false_ne_true, hnone]
              rfl
          · exact nomatch h
      | rule cmd =>
          obtain ⟨rest, hrest, h⟩ := bind_eq_ok_iff.mp h
          rw [← Except.ok.inj h, List.filter_cons_of_neg Bool.false_ne_true,
            ← length_gridLines hrest]
          rfl
      | list t cells =>
          obtain ⟨cs, hcs, h⟩ := bind_eq_ok_iff.mp h
          obtain ⟨rest, hrest, h⟩ := bind_eq_ok_iff.mp h
          rw [← Except.ok.inj h, List.filter_cons_of_pos rfl, List.map_cons,
            ← length_gridLines hrest, ← (length_gridRow hcs).2]
          rfl
      | _ => exact nomatch h

/-- The columns are counted from a row that is emitted. -/
theorem firstRowLen_eq {ctx : Ctx} :
    ∀ {rows : List Val} {i : Nat} {ls : List Line}, gridLines one ctx i rows = .ok ls →
      firstRowLen rows = (rows.find? isRow).map cellCount
  | [], _, _, _ => rfl
  | r :: rows, i, ls, h => by
      cases r with
      | nil =>
          rw [gridLines] at h
          split at h
          · next hall =>
              have hnone : rows.find? isRow = none :=
                List.find?_eq_none.mpr fun r hr => not_row_of_nil (List.all_eq_true.mp hall r hr)
              rw [List.find?_cons_of_neg Bool.false_ne_true, hnone]
              rfl
          · exact nomatch h
      | rule cmd =>
          obtain ⟨rest, hrest, -⟩ := bind_eq_ok_iff.mp h
          rw [List.find?_cons_of_neg Bool.false_ne_true, ← firstRowLen_eq hrest]
          rfl
      | list t cells => rfl
      | _ => exact nomatch h

/-- All rows of cells fit into `k` columns if all rows given do. -/
theorem lines_fit_iff {ctx : Ctx} {rows : List Val} {i : Nat} {ls : List Line}
    (h : gridLines one ctx i rows = .ok ls) (k : Nat) :
    (∀ cs ∈ ls.filterMap Line.cells?, cs.length ≤ k) ↔ rows.all (cellCount · ≤ k) = true := by
  have hlen := length_gridLines h
  have hmap : (∀ cs ∈ ls.filterMap Line.cells?, cs.length ≤ k)
      ↔ ∀ n ∈ (ls.filterMap Line.cells?).map List.length, n ≤ k :=
    (List.forall_mem_map (P := (· ≤ k))).symm
  rw [hmap, hlen, List.forall_mem_map, List.all_eq_true]
  constructor
  · intro hall r hr
    by_cases hrow : isRow r = true
    · exact decide_eq_true (hall r (List.mem_filter.mpr ⟨hr, hrow⟩))
    · rw [cellCount_of_not_row hrow]
      exact decide_eq_true (Nat.zero_le k)
  · exact fun hall r hr => of_decide_eq_true (hall r (List.mem_of_mem_filter hr))

/-- With a header, its cells are counted. -/
theorem ncols_of_header {t : TabCfg Val} {ctx : Ctx} {head : Option (List Bytes)} {n : Option Nat}
    (htruthy : t.header.truthy = true) (hhead : gridHeader one ctx t.header = .ok head)
    (hn : ncols t = .ok n) :
    ∃ cs, head = some cs ∧ cs.length = cellCount t.header ∧ n = some (cellCount t.header) := by
  rw [gridHeader, if_pos htruthy] at hhead
  obtain ⟨cs, hcs, hhead⟩ := bind_eq_ok_iff.mp hhead
  obtain ⟨hrow, hlen⟩ := length_gridRow hcs
  have hcount : headerLen t.header = .ok (cellCount t.header) := by
    cases hheader : t.header with
    | list term cells => rfl
    | _ =>
        rw [hheader] at hrow
        exact absurd hrow Bool.false_ne_true
  rw [ncols, if_pos htruthy, hcount] at hn
  exact ⟨cs, (Except.ok.inj hhead).symm, hlen, (Except.ok.inj hn).symm⟩

/-- **There are columns enough** exactly where no row is longer than the one that was
counted. -/
theorem grid_fits_iff {t : TabCfg Val} {ctx : Ctx} {g : Grid} (h : tabularGrid one t ctx = .ok g)
    (hcols : t.cols = none) :
    (∀ cs ∈ g.rows, cs.length ≤ g.cols.length) ↔ even t = true := by
  obtain ⟨n, hn, h⟩ := bind_eq_ok_iff.mp h
  obtain ⟨head, hhead, h⟩ := bind_eq_ok_iff.mp h
  obtain ⟨lines, hlines, h⟩ := bind_eq_ok_iff.mp h
  rw [← Except.ok.inj h, hcols]
  simp only [Grid.rows, Option.getD_none, List.length_replicate, List.forall_mem_append,
    lines_fit_iff hlines]
  rw [even]
  by_cases htruthy : t.header.truthy = true
  · obtain ⟨cs, rfl, hlen, rfl⟩ := ncols_of_header htruthy hhead hn
    rw [if_pos htruthy, Option.toList_some, List.forall_mem_singleton, Option.getD_some, hlen]
    exact and_iff_right le_rfl
  · rw [gridHeader, if_neg htruthy] at hhead
    rw [ncols, if_neg htruthy] at hn
    rw [if_neg htruthy, ← Except.ok.inj hhead, ← Except.ok.inj hn, firstRowLen_eq hlines]
    cases hfind : t.rows.find? isRow with
    | some r => simp
    | none =>
        have hzero : ∀ r ∈ t.rows, cellCount r = 0 := fun r hr =>
          cellCount_of_not_row (List.find?_eq_none.mp hfind r hr)
        simp only [Option.toList_none, List.not_mem_nil, false_implies, implies_true, true_and,
          List.all_eq_true, iff_true]
        exact fun r hr => decide_eq_true (by rw [hzero r hr]; exact Nat.zero_le _)

end

/-- **The columns that `tabular_lines` infers are enough** for the header and every row of
cells it emits, exactly where the table is even. -/
theorem tabular_columns_iff {t : TabCfg Val} (hcols : t.cols = none) {ctx : Ctx} {s : Bytes}
    (h : tabularLines renderNode t ctx = .ok s) :
    ∃ g, tabularGrid renderNode t (tabularCtx t.resize ctx) = .ok g ∧
      s = boxed t.resize ctx (g.text t.booktabs (tabularCtx t.resize ctx)) ∧
        ((∀ cs ∈ g.rows, cs.length ≤ g.cols.length) ↔ even t = true) := by
  rw [tabularLines_eq] at h
  cases hg : tabularGrid renderNode t (tabularCtx t.resize ctx) with
  | error err =>
      rw [hg] at h
      exact nomatch h
  | ok g =>
      rw [hg] at h
      exact ⟨g, rfl, (Except.ok.inj h).symm, grid_fits_iff hg hcols⟩

/-- A table of texts, with the columns inferred. -/
def textRows (rows : List (List Bytes)) : TabCfg Val where
  cols := none
  header := .nil
  rows := rows.map fun cs => .list .nil (cs.map .str)
  booktabs := true
  resize := false

/-- The rows `a & b` and `c`. -/
theorem textRows_columns :
    ∃ g, tabularGrid renderNode (textRows [[ascii "a", ascii "b"], [ascii "c"]]) ⟨true, 0⟩ = .ok g ∧
      Grid.text true ⟨true, 0⟩ ⟨ascii "ll", none, [.cells [ascii "a", ascii "b"], .cells [ascii "c"]]⟩
        = boxed false ⟨true, 0⟩ (g.text true ⟨true, 0⟩) ∧
        ((∀ cs ∈ g.rows, cs.length ≤ g.cols.length)
          ↔ even (textRows [[ascii "a", ascii "b"], [ascii "c"]]) = true) :=
  tabular_columns_iff rfl (by decide)

/-- The rows `a` and `b & c`: one column for two cells. -/
theorem textRows_ragged :
    ∃ g, tabularGrid renderNode (textRows [[ascii "a"], [ascii "b", ascii "c"]]) ⟨true, 0⟩ = .ok g ∧
      ∃ cs ∈ g.rows, g.cols.length < cs.length :=
  ⟨⟨ascii "l", none, [.cells [ascii "a"], .cells [ascii "b", ascii "c"]]⟩, by decide,
    [ascii "b", ascii "c"], by decide, by decide⟩

end Tmg.Latex
