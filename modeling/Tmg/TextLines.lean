/-
# `Tmg.TextLines` — where the line map sends text

Text is held back in `buffer` until the next delimiter, and `flush_text_buffer` notes
every newline of it with the `cur_line` of that moment.  So of a text

    a        line 1
    b%       line 2, and the delimiter

both lines of the literal are mapped to line 2: the map follows the delimiter, not
the text.  The text that the end of the file ends is the other way round for its first
line, which continues the line the chunk had got to: that line is mapped to the last
delimiter's.

`textLines_iff` is the exact condition for text to be mapped right, `TextOnLine`: what
was copied of a text lies on the line it is going to be mapped to.
-/
import Tmg.LineMap

namespace Tmg

open Lib

/-! ## The last delimiter -/

theorem togglesFrom_concat (sep : CString) (c : Byte) :
    ∀ (s : Bytes) (i : Nat) (st : Scan),
      togglesFrom sep i st (s ++ [c]) = togglesFrom sep i st s
        ++ togglesFrom sep (i + s.length) (s.foldl (scanByte sep) st) [c]
  | [], _, _ => rfl
  | x :: s, i, st => by
      have hlen : i + (x :: s).length = i + 1 + s.length := by
        rw [List.length_cons]
        omega
      rw [List.cons_append, togglesFrom, togglesFrom, togglesFrom_concat sep c s, List.foldl_cons,
        hlen]
      split <;> rfl

/-- Where the last delimiter ended, or the beginning of the template. -/
def lastDelim (sep : CString) (tpl : Bytes) : Nat := (toggles sep tpl).getLast?.getD 0

theorem lastDelim_concat (sep : CString) (p : Bytes) (c : Byte) :
    lastDelim sep (p ++ [c])
      = if (scan sep (p ++ [c])).code = (scan sep p).code then lastDelim sep p else p.length := by
  have hlast : togglesFrom sep (0 + p.length) (scan sep p) [c]
      = if (scan sep (p ++ [c])).code = (scan sep p).code then [] else [p.length] := by
    rw [scan_concat, Nat.zero_add]
    rfl
  rw [lastDelim, toggles, togglesFrom_concat, List.getLast?_append]
  change ((togglesFrom sep (0 + p.length) (scan sep p) [c]).getLast?.or _).getD 0 = _
  rw [hlast]
  split <;> rfl

theorem lastDelim_le (sep : CString) (p : Bytes) : lastDelim sep p ≤ p.length := by
  induction p using List.reverseRecOn with
  | nil => exact Nat.le_refl 0
  | append_singleton p c ih =>
      rw [lastDelim_concat, List.length_append]
      split
      · exact ih.trans (Nat.le_add_right _ _)
      · exact Nat.le_add_right _ _

/-! ## The condition -/

/-- The cells up to the first newline, and the newline. -/
def firstLine : List Cell → List Cell
  | [] => []
  | x :: cs => if x.byte = nl then [x] else x :: firstLine cs

/-- The cells behind the first newline. -/
def laterLines : List Cell → List Cell
  | [] => []
  | x :: cs => if x.byte = nl then cs else laterLines cs

/-- What was copied of a text that a delimiter ends lies on the line of the delimiter;
of the last text, what was copied up to the first newline lies on the line of the last
delimiter, the rest on the last line of the template. -/
structure TextOnLine (sep : CString) (tpl : Bytes) : Prop where
  ended : Always (Traced.step sep) (fun t c _ => t.Completes sep c → ∀ i ∈ posOf t.buffer,
    lineAt tpl i = lineAt tpl t.pos) Traced.init tpl
  first : ∀ i ∈ posOf (firstLine (lastText sep tpl)), lineAt tpl i = lineAt tpl (lastDelim sep tpl)
  later : ∀ i ∈ posOf (laterLines (lastText sep tpl)), lineAt tpl i = lineAt tpl tpl.length

instance (sep : CString) (t : Traced) (c : Byte) : Decidable (t.Completes sep c) :=
  inferInstanceAs (Decidable (_ ∧ _ ∧ _))

instance (sep : CString) (tpl : Bytes) : Decidable (TextOnLine sep tpl) :=
  decidable_of_iff (Always (Traced.step sep) (fun t c _ => t.Completes sep c →
      ∀ i ∈ posOf t.buffer, lineAt tpl i = lineAt tpl t.pos) Traced.init tpl ∧
    (∀ i ∈ posOf (firstLine (lastText sep tpl)), lineAt tpl i = lineAt tpl (lastDelim sep tpl)) ∧
    ∀ i ∈ posOf (laterLines (lastText sep tpl)), lineAt tpl i = lineAt tpl tpl.length)
    ⟨fun h => ⟨h.1, h.2.1, h.2.2⟩, fun h => ⟨h.ended, h.first, h.later⟩⟩

/-- A statement about the positions of `cs`, as one about its splits. -/
theorem forall_posOf_iff {A : Nat → Prop} {cs : List Cell} :
    (∀ i ∈ posOf cs, A i) ↔ ∀ pre i b post, cs = pre ++ Cell.src i b :: post → A i := by
  constructor
  · intro h pre i b post hcs
    exact h i (mem_posOf_iff.mpr ⟨pre, b, post, hcs⟩)
  · intro h i hi
    obtain ⟨pre, b, post, hcs⟩ := mem_posOf_iff.mp hi
    exact h pre i b post hcs

/-- A cell is in the first line when there is no newline before it, else behind it. -/
theorem forall_split_iff {A B : Nat → Prop} :
    ∀ cs : List Cell,
      (∀ pre i b post, cs = pre ++ Cell.src i b :: post → if nl ∈ bytesOf pre then B i else A i) ↔
        (∀ i ∈ posOf (firstLine cs), A i) ∧ ∀ i ∈ posOf (laterLines cs), B i
  | [] => by simp [firstLine, laterLines]
  | x :: cs => by
      have hhead : (∀ i b, x = Cell.src i b → A i) ↔ ∀ i ∈ posOf [x], A i := by
        cases x <;> simp [posOf, Cell.pos?]
      have hcons : posOf (x :: firstLine cs) = posOf [x] ++ posOf (firstLine cs) :=
        posOf_append [x] _
      have hsplit : (∀ pre i b post, x :: cs = pre ++ Cell.src i b :: post →
            if nl ∈ bytesOf pre then B i else A i) ↔
          (∀ i b, x = Cell.src i b → A i) ∧ ∀ pre i b post, cs = pre ++ Cell.src i b :: post →
            if x.byte = nl ∨ nl ∈ bytesOf pre then B i else A i := by
        constructor
        · intro h
          refine ⟨fun i b hx => ?_, fun pre i b post hcs => ?_⟩
          · simpa using h [] i b cs (by simp [hx])
          · simpa [bytesOf, eq_comm] using h (x :: pre) i b post (by simp [hcs])
        · rintro ⟨hx, hcs⟩ pre i b post h
          cases pre with
          | nil => simpa using hx i b (List.cons.inj h).1
          | cons y pre =>
              obtain ⟨rfl, htail⟩ := List.cons.inj h
              simpa [bytesOf, eq_comm] using hcs pre i b post htail
      rw [hsplit, hhead]
      by_cases hx : x.byte = nl
      · simp only [hx, true_or, if_true, firstLine, laterLines, ← forall_posOf_iff]
      · simp only [hx, false_or, if_false, firstLine, laterLines, forall_split_iff cs]
        rw [hcons]
        simp only [List.forall_mem_append, and_assoc]

section

variable {d : Byte} {h0 : d ≠ 0} {p : Bytes}

theorem completes_single {c : Byte}
    (h : (trace (CString.single d h0) p).Completes (CString.single d h0) c) : c = d := by
  have hall := h.2.2
  rw [trace_noMatch] at hall
  exact (List.cons.inj hall).1

/-- In text the last entry of the map is the line of the last delimiter. -/
theorem text_began (hn : d ≠ nl) (p : Bytes) :
    (scan (CString.single d h0) p).code = false →
      (scan (CString.single d h0) p).lm.getLast?
        = some (lineAt p (lastDelim (CString.single d h0) p)) := by
  induction p using List.reverseRecOn with
  | nil => exact fun _ => rfl
  | append_singleton p c ih =>
      intro hcode
      rw [lastDelim_concat]
      cases @lineStep d h0 p c with
      | text cs _ _ hmode _ _ hlm _ =>
          rw [if_pos (hcode.trans hmode.symm), lineAt_append (lastDelim_le _ _), hlm, ih hmode]
      | code _ _ _ _ hmode _ _ _ => exact absurd (hcode.symm.trans hmode) (by decide)
      | toggled cs hc hcs _ hlm _ hflip =>
          subst hcs
          have hne : ¬ (scan (CString.single d h0) (p ++ [c])).code
              = (scan (CString.single d h0) p).code := by
            rw [hflip]
            simp
          have hcn : c ≠ nl := by
            rw [completes_single hc]
            exact hn
          rw [if_neg hne, lineAt_append le_rfl, getLast?_toggled hlm, lineAt_length, lineAt_length]
          simp [hcn]

/-- A template byte behind generated ones. -/
theorem gens_append_eq {bs : Bytes} {cs pre post : List Cell} {i : Nat} {b : Byte}
    (h : gens bs ++ cs = pre ++ Cell.src i b :: post) :
    ∃ pre', pre = gens bs ++ pre' ∧ cs = pre' ++ Cell.src i b :: post := by
  induction bs generalizing pre with
  | nil => exact ⟨pre, rfl, h⟩
  | cons x bs ih =>
      cases pre with
      | nil => exact absurd h (by simp [gens])
      | cons y pre =>
          obtain ⟨rfl, htail⟩ := List.cons.inj h
          obtain ⟨pre', rfl, hcs⟩ := ih htail
          exact ⟨pre', rfl, hcs⟩

/-- A template byte before generated ones. -/
theorem append_gens_eq {bs : Bytes} {cs pre post : List Cell} {i : Nat} {b : Byte}
    (h : cs ++ gens bs = pre ++ Cell.src i b :: post) :
    ∃ post', cs = pre ++ Cell.src i b :: post' := by
  rcases List.append_eq_append_iff.mp h with ⟨mid, -, hmid⟩ | ⟨mid, hcs, hmid⟩
  · have hmem : Cell.src i b ∈ gens bs := by
      rw [hmid]
      simp
    exact absurd hmem (by simp [gens])
  · cases mid with
    | nil =>
        have hmem : Cell.src i b ∈ [] ++ gens bs := by
          rw [← hmid]
          simp
        exact absurd hmem (by simp [gens])
    | cons x mid =>
        obtain ⟨rfl, -⟩ := List.cons.inj hmid
        exact ⟨mid, hcs⟩

/-- Before the text there is no newline in the statement that prints it. -/
theorem print_split_iff {cs : List Cell} {A B : Nat → Prop} :
    (∀ pre i b post, Traced.printStatement cs = pre ++ Cell.src i b :: post →
        if nl ∈ bytesOf pre then B i else A i) ↔
      ∀ pre i b post, cs = pre ++ Cell.src i b :: post →
        if nl ∈ bytesOf pre then B i else A i := by
  by_cases hcs : cs = []
  · simp [hcs, Traced.printStatement]
  generalize hopen : ascii "tmg.print(" ++ lbr :: (List.replicate (maxEquals (bytesOf cs)) eqs
    ++ [lbr]) = opening
  have hprint : Traced.printStatement cs = gens opening ++ cs
      ++ gens (closing rbr eqs (maxEquals (bytesOf cs)) ++ ascii ")\n") := by
    rw [Traced.printStatement, if_neg hcs, ← hopen]
  have hnl : nl ∉ opening := by
    have hmid : nl ∉ List.replicate (maxEquals (bytesOf cs)) eqs := by
      intro h
      exact absurd (List.eq_of_mem_replicate h) (by decide)
    have hword : nl ∉ ascii "tmg.print(" := by decide
    have hlbr : nl ≠ lbr := by decide
    simp [← hopen, hword, hmid, hlbr]
  have hiff : ∀ pre, nl ∈ bytesOf (gens opening ++ pre) ↔ nl ∈ bytesOf pre := by
    intro pre
    simp [hnl]
  constructor
  · intro h pre i b post hsplit
    have hat := h (gens opening ++ pre) i b _ (by rw [hprint, hsplit]; simp; rfl)
    simpa only [hiff] using hat
  · intro h pre i b post hsplit
    rw [hprint] at hsplit
    obtain ⟨post', hsplit⟩ := append_gens_eq hsplit
    obtain ⟨pre', rfl, hcell⟩ := gens_append_eq hsplit
    simpa only [hiff] using h pre' i b post' hcell

/-- One byte more: what it ends lies on its line, and the rest stays mapped right. -/
theorem mapsLines_text_concat (hn : d ≠ nl) {tpl : Bytes} {c : Byte} {r : Bytes}
    (htpl : tpl = p ++ [c] ++ r) :
    MapsLines (CString.single d h0) tpl false (trace (CString.single d h0) (p ++ [c])).builder
        (scan (CString.single d h0) (p ++ [c])).lm ↔
      MapsLines (CString.single d h0) tpl false (trace (CString.single d h0) p).builder
          (scan (CString.single d h0) p).lm ∧
        ((trace (CString.single d h0) p).Completes (CString.single d h0) c →
          ∀ i ∈ posOf (trace (CString.single d h0) p).buffer,
            lineAt tpl i = lineAt tpl (trace (CString.single d h0) p).pos) := by
  have hlen := scan_lm_trace (CString.single d h0) p
  cases @lineStep d h0 p c with
  | text cs hnot _ _ _ hb hlm _ =>
      rw [hb, hlm]
      exact (and_iff_left fun h => absurd h hnot).symm
  | code cs hnot hcs hmode _ hb hlm _ =>
      rw [hb, hlm, mapsLines_append hlen]
      refine and_congr_right fun _ => iff_of_true ?_ fun h => absurd h hnot
      intro pre i b post hsplit hi
      -- what is passed on in code is code
      obtain ⟨-, hread, -, hle⟩ := passed_line hcs hsplit
      have hle : i ≤ (p ++ [c]).length := by
        rw [List.length_append]
        omega
      rw [htpl, codeAt_append hle, hread, hmode] at hi
      exact absurd hi (by decide)
  | toggled cs hc hcs hb hlm _ _ =>
      subst hcs
      rw [hb, hlm, mapsLines_append hlen]
      refine and_congr_right fun _ => ?_
      have hcn : c ≠ nl := by
        rw [completes_single hc]
        exact hn
      have hline : lineAt (p ++ [c]) (p ++ [c]).length = lineAt tpl p.length := by
        rw [htpl, List.append_assoc, lineAt_append le_rfl, lineAt_length, lineAt_length]
        simp [hcn]
      rw [hline, trace_pos]
      constructor
      · intro h _ i hi
        have hpos : i ∈ posOf (gens [nl] ++ Traced.printStatement
            (trace (CString.single d h0) p).buffer) := by
          simpa [Traced.posOf_printStatement] using hi
        obtain ⟨pre, b, post, hsplit⟩ := mem_posOf_iff.mp hpos
        obtain ⟨pre', rfl, -⟩ := gens_append_eq hsplit
        have hlt := trace_pos_lt (CString.single d h0) p (i := i) (by simp [hi])
        have htext : codeAt (CString.single d h0) tpl i = false := by
          rw [htpl, List.append_assoc, codeAt_append hlt.le]
          exact (@placed d h0 p).text i hi
        have hat := h _ i b post hsplit htext
        rw [if_pos (by simp)] at hat
        exact (Option.some.inj hat).symm
      · intro h pre i b post hsplit _
        have hpos := mem_posOf_iff.mpr ⟨pre, b, post, hsplit⟩
        rw [posOf_append, posOf_gens, List.nil_append, Traced.posOf_printStatement] at hpos
        obtain ⟨pre', rfl, -⟩ := gens_append_eq hsplit
        rw [if_pos (by simp), h hc i hpos]

/-- Up to any point, text is mapped right exactly when each text that a delimiter has ended
lies on the line of the delimiter. -/
theorem mapsLines_text_iff (hn : d ≠ nl) {tpl : Bytes} (p : Bytes) :
    ∀ r, tpl = p ++ r →
      (MapsLines (CString.single d h0) tpl false (trace (CString.single d h0) p).builder
          (scan (CString.single d h0) p).lm ↔
        Always (Traced.step (CString.single d h0)) (fun t c _ =>
          t.Completes (CString.single d h0) c → ∀ i ∈ posOf t.buffer, lineAt tpl i = lineAt tpl t.pos)
          Traced.init p) := by
  induction p using List.reverseRecOn with
  | nil =>
      intro r _
      refine iff_of_true ?_ trivial
      intro pre i b post h
      exact absurd h (by simp [trace, Traced.init])
  | append_singleton p c ih =>
      intro r htpl
      have hlast : ∀ {P : Traced → Byte → List Byte → Prop},
          Always (Traced.step (CString.single d h0)) P
              (p.foldl (Traced.step (CString.single d h0)) Traced.init) [c] ↔
            P (trace (CString.single d h0) p) c [] := by
        intro P
        simp [Always, trace]
      rw [always_append, hlast, ← ih (c :: r) (by simp [htpl])]
      exact mapsLines_text_concat hn htpl

/-- In the text that the file ends, the first line continues the last line there was. -/
theorem lastCells_iff (hn : d ≠ nl) (tpl : Bytes) :
    (∀ pre i b post, lastCells (CString.single d h0) tpl = pre ++ Cell.src i b :: post →
        codeAt (CString.single d h0) tpl i = false →
        (if nl ∈ bytesOf pre then some (lineAt tpl tpl.length)
          else (scan (CString.single d h0) tpl).lm.getLast?) = some (lineAt tpl i)) ↔
      (∀ i ∈ posOf (firstLine (lastText (CString.single d h0) tpl)),
        lineAt tpl i = lineAt tpl (lastDelim (CString.single d h0) tpl)) ∧
      ∀ i ∈ posOf (laterLines (lastText (CString.single d h0) tpl)),
        lineAt tpl i = lineAt tpl tpl.length := by
  have hcode := trace_code (CString.single d h0) tpl
  rw [← forall_split_iff, ← print_split_iff]
  cases hmode : (scan (CString.single d h0) tpl).code with
  | true =>
      -- no text is left, and a pending backslash is code
      have hnone : lastText (CString.single d h0) tpl = [] := by
        have hnoText := trace_noText _ tpl (hcode.trans hmode)
        simp [lastText, Traced.emit, hcode.trans hmode, hnoText]
      refine iff_of_true (fun pre i b post hsplit hi => ?_) (by simp [hnone, Traced.printStatement])
      simp only [lastCells, hcode.trans hmode, if_true, hnone, Traced.printStatement,
        List.append_nil] at hsplit
      have hread := (pendingCells_line hsplit).2.1.trans hmode
      exact absurd (hi.symm.trans hread) (by decide)
  | false =>
      have hcells : lastCells (CString.single d h0) tpl
          = Traced.printStatement (lastText (CString.single d h0) tpl) := by
        simp [lastCells, hcode.trans hmode]
      have hentry : ∀ (q : Prop) [Decidable q] (x y z : Nat),
          (if q then some x else some y) = some z ↔ if q then z = x else z = y := by
        intro q _ x y z
        split <;> simp [eq_comm]
      rw [hcells, text_began hn tpl hmode]
      simp only [hentry]
      constructor
      · intro h pre i b post hsplit
        exact h pre i b post hsplit (lastText_text (mem_posOf_of_print hsplit))
      · intro h pre i b post hsplit _
        exact h pre i b post hsplit

/-- **Text is mapped right exactly when what was copied of it lies on the line that it is
going to be mapped to.** -/
theorem textLines_iff (hn : d ≠ nl) (tpl : Bytes) :
    MappedRight (CString.single d h0) tpl false ↔ TextOnLine (CString.single d h0) tpl := by
  rw [mappedRight_iff, chunkCells_eq, finish_lm, mapsLines_append (scan_lm_trace _ tpl),
    mapsLines_text_iff hn tpl [] (by simp), lastCells_iff hn]
  constructor
  · rintro ⟨hended, hfirst, hlater⟩
    exact ⟨hended, hfirst, hlater⟩
  · rintro ⟨hended, hfirst, hlater⟩
    exact ⟨hended, hfirst, hlater⟩

end

/-- A text on one line is mapped right. -/
theorem textLines_percent : MappedRight (CString.single 37 (by decide)) (ascii "a%x\n%b\nc") false :=
  (textLines_iff (by decide) _).mpr (by decide)

/-- Of the text `a`, newline, `b` the byte `a` is on line 1 of the template and on line 2 of
the chunk, which is mapped to line 2. -/
theorem textLines_late :
    ¬ MappedRight (CString.single 37 (by decide)) (ascii "a\nb%") false ∧
      (finish (scan (CString.single 37 (by decide)) (ascii "a\nb%"))).lm = [1, 2, 2, 2] ∧
      chunk (CString.single 37 (by decide)) (ascii "a\nb%") = ascii "\ntmg.print([[a\nb]])\n" := by
  refine ⟨fun h => ?_, by decide, by decide⟩
  have hcell : (chunkCells (CString.single 37 (by decide)) (ascii "a\nb%"))[13]? = some (.src 0 97) := by
    decide
  exact absurd (h 13 0 97 hcell (by decide)) (by decide)

end Tmg
