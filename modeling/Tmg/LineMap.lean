/-
# `Tmg.LineMap` — the line map of the chunk, and where code bytes land in it

`lm` has an entry for every line of the chunk: the template's line it came from.
An entry is pushed next to a newline byte (`note_newline`), from five places, and
the line it names is always `cur_line`, the line of the byte being read.  `Noted`
says this once of every piece of the loop:

    the chunk grew by ext, and lm by one entry cur_line for each newline of ext

so a byte that lands in the chunk is on a line whose entry is either the last one
there was, or `cur_line`.  In code the last entry *is* the line of the byte being
read (`Placed.here`), which is why code bytes are mapped right: `lineMap_code`.
What becomes of text is in `Tmg.TextLines`.
-/
import Tmg.Provenance
import Tmg.Toggle
import Mathlib.Data.List.Count

namespace Tmg

open Lib

/-- The line of position `i`: one more than the newlines before it. -/
def lineAt (bs : Bytes) (i : Nat) : Nat := 1 + (bs.take i).count nl

theorem lineAt_length (p : Bytes) : lineAt p p.length = 1 + p.count nl := by
  rw [lineAt, List.take_length]

theorem lineAt_append {p : Bytes} {i : Nat} (h : i ≤ p.length) (s : Bytes) :
    lineAt (p ++ s) i = lineAt p i := by
  rw [lineAt, lineAt, List.take_append_of_le_length h]

/-! ## What a piece of the loop does to the map -/

/-- The chunk grew, and the map by an entry for each new line of it. -/
def Noted (st st' : Scan) : Prop :=
  st'.curLine = st.curLine ∧
    ∃ ext, st'.builder = st.builder ++ ext ∧ st'.genLine = st.genLine + ext.count nl ∧
      st'.lm = st.lm ++ List.replicate (ext.count nl) st.curLine

namespace Noted

/-- Nothing happened to the chunk and to the map. -/
theorem same {st st' : Scan} (hcur : st'.curLine = st.curLine) (hbuilder : st'.builder = st.builder)
    (hgen : st'.genLine = st.genLine) (hlm : st'.lm = st.lm) : Noted st st' :=
  ⟨hcur, [], by simp [hbuilder], by simp [hgen], by simp [hlm]⟩

theorem refl (st : Scan) : Noted st st := same rfl rfl rfl rfl

theorem trans {a b c : Scan} (hab : Noted a b) (hbc : Noted b c) : Noted a c := by
  obtain ⟨hcur, ext, hbuilder, hgen, hlm⟩ := hab
  obtain ⟨hcur', ext', hbuilder', hgen', hlm'⟩ := hbc
  refine ⟨hcur'.trans hcur, ext ++ ext', ?_, ?_, ?_⟩
  · rw [hbuilder', hbuilder, List.append_assoc]
  · rw [hgen', hgen, List.count_append, Nat.add_assoc]
  · rw [hlm', hlm, hcur, List.count_append, List.replicate_add, List.append_assoc]

/-- The entries, for a chunk that is known to have grown by `ext`. -/
theorem lm_eq {st st' : Scan} (h : Noted st st') {ext : Bytes}
    (hext : st'.builder = st.builder ++ ext) :
    st'.lm = st.lm ++ List.replicate (ext.count nl) st.curLine := by
  obtain ⟨-, ext', hext', -, hlm⟩ := h
  rw [hext, List.append_cancel_left_eq] at hext'
  rw [hlm, hext']

theorem pushBuilder (st : Scan) {c : Byte} (hc : c ≠ nl) : Noted st (st.pushBuilder c) :=
  ⟨rfl, [c], rfl, by simp [Scan.pushBuilder, hc], by simp [Scan.pushBuilder, hc]⟩

theorem pushBuffer (st : Scan) (c : Byte) : Noted st (st.pushBuffer c) := same rfl rfl rfl rfl

theorem newline (st : Scan) : Noted st ((st.pushBuilder nl).noteNewline st.curLine) :=
  ⟨rfl, [nl], rfl, rfl, rfl⟩

theorem pushNoted (st : Scan) (c : Byte) : Noted st (st.pushNoted c) := by
  unfold Scan.pushNoted
  by_cases hc : c = nl
  · subst hc
    exact newline st
  · simpa [hc] using pushBuilder st hc

/-- Bytes that are pushed one at a time. -/
theorem foldl {push : Scan → Byte → Scan} (hpush : ∀ st c, Noted st (push st c)) :
    ∀ (t : Bytes) (st : Scan), Noted st (t.foldl push st)
  | [], st => refl st
  | c :: t, st => (hpush st c).trans (foldl hpush t (push st c))

theorem strPush (st : Scan) {data : Bytes} (h : nl ∉ cstr data) :
    Noted st { st with builder := strPush st.builder data } :=
  ⟨rfl, cstr data, rfl, by simp [List.count_eq_zero.mpr h], by simp [List.count_eq_zero.mpr h]⟩

theorem pushEquals : ∀ (n : Nat) (st : Scan), Noted st (pushEquals n st)
  | 0, st => refl st
  | n + 1, st => (pushBuilder st (by decide)).trans (pushEquals n _)

/-- The literal's end: its newline has an entry of its own. -/
theorem closeLiteral (st : Scan) :
    Noted st ({ st with builder := Tmg.strPush st.builder (ascii "])\n") }.noteNewline st.curLine) :=
  ⟨rfl, cstr (ascii "])\n"), rfl, rfl, rfl⟩

theorem flushTextBuffer (st : Scan) : Noted st (flushTextBuffer st) := by
  have hopen : nl ∉ cstr (ascii "tmg.print([") := by decide
  have hlbr : lbr ≠ nl := by decide
  have hrbr : rbr ≠ nl := by decide
  unfold Tmg.flushTextBuffer
  split
  · exact refl st
  · let n := maxEquals st.buffer
    let opened :=
      (Tmg.pushEquals n { st with builder := Tmg.strPush st.builder (ascii "tmg.print([") }).pushBuilder
        lbr
    let body := st.buffer.foldl Scan.pushNoted opened
    let closed := Tmg.pushEquals n (body.pushBuilder rbr)
    have hopened : Noted st opened :=
      (strPush st hopen).trans ((pushEquals n _).trans (pushBuilder _ hlbr))
    have hbody : Noted opened body := foldl pushNoted st.buffer opened
    have hclosed : Noted body closed := (pushBuilder body hrbr).trans (pushEquals n _)
    exact ((hopened.trans hbody).trans hclosed).trans (closeLiteral closed)

theorem toggle (st : Scan) : Noted st (toggle st) :=
  (newline st).trans (flushTextBuffer _)

theorem pushMatched (st : Scan) (c : Byte) : Noted st (pushMatched st c) := by
  unfold Tmg.pushMatched
  split
  · exact pushNoted st c
  · exact pushBuffer st c

theorem escapeByte (sep : CString) (st : Scan) (c : Byte) : Noted st (escapeByte sep st c) := by
  have hbsl : bsl ≠ nl := by decide
  unfold Tmg.escapeByte
  simp only
  split
  · split
    · exact pushNoted _ c
    · exact (pushBuilder { st with escapeNext := false } hbsl).trans (pushNoted _ c)
  · split
    · exact same rfl rfl rfl rfl
    · split <;> exact same rfl rfl rfl rfl

theorem matchByte (sep : CString) (st : Scan) (c : Byte) : Noted st (matchByte sep st c) := by
  unfold Tmg.matchByte
  simp only
  split
  · split
    · exact toggle { st with matchBuf := strPushChr st.matchBuf c }
    · exact same rfl rfl rfl rfl
  · exact foldl pushMatched _ { st with matchBuf := strPushChr st.matchBuf c }

/-- One turn of the loop, after the line counter has moved. -/
theorem scanByte (sep : CString) (st : Scan) (c : Byte) :
    Noted (if c = nl then { st with curLine := st.curLine + 1 } else st) (scanByte sep st c) := by
  have key : ∀ s : Scan, Noted s (if s.escapeNext then Tmg.escapeByte sep s c
      else if c = bsl then { s with escapeNext := true } else Tmg.matchByte sep s c) := by
    intro s
    split
    · exact escapeByte sep s c
    · split
      · exact same rfl rfl rfl rfl
      · exact matchByte sep s c
  exact key _

/-- What follows the loop, where no partial match is left. -/
theorem finish {st : Scan} (hm : st.matchBuf = []) : Noted st (finish st) := by
  let first := if st.escapeNext then (if st.code then st.pushBuilder bsl else st.pushBuffer bsl)
    else st
  have hfirst : Noted st first ∧ first.matchBuf = [] := by
    have hbsl : bsl ≠ nl := by decide
    simp only [first]
    split
    · split
      · exact ⟨pushBuilder st hbsl, hm⟩
      · exact ⟨pushBuffer st bsl, hm⟩
    · exact ⟨refl st, hm⟩
  have hlen : ¬ first.matchBuf.length > 0 := by simp [hfirst.2]
  have hrest : Tmg.finish st = Tmg.flushTextBuffer first :=
    congrArg Tmg.flushTextBuffer (if_neg hlen)
  rw [hrest]
  exact hfirst.1.trans (flushTextBuffer first)

end Noted

/-! ## The map along a run -/

theorem scan_concat (sep : CString) (p : Bytes) (c : Byte) :
    scan sep (p ++ [c]) = scanByte sep (scan sep p) c := by
  simp [scan, List.foldl_append]

theorem scan_curLine (sep : CString) (p : Bytes) : (scan sep p).curLine = lineAt p p.length := by
  rw [lineAt_length]
  induction p using List.reverseRecOn with
  | nil => rfl
  | append_singleton p c ih =>
      have hcur := (Noted.scanByte sep (scan sep p) c).1
      rw [← scan_concat] at hcur
      rw [hcur]
      by_cases hc : c = nl
      · simp [hc, ih, Nat.add_assoc]
      · simp [hc, ih]

/-- The entries the next byte adds. -/
theorem lm_concat (sep : CString) (p : Bytes) (c : Byte) :
    ∃ ext, (scan sep (p ++ [c])).builder = (scan sep p).builder ++ ext ∧
      (scan sep (p ++ [c])).lm = (scan sep p).lm
        ++ List.replicate (ext.count nl) (lineAt (p ++ [c]) (p ++ [c]).length) := by
  obtain ⟨hcur, ext, hbuilder, -, hlm⟩ := Noted.scanByte sep (scan sep p) c
  rw [← scan_concat] at hcur hbuilder hlm
  rw [← hcur] at hlm
  refine ⟨ext, ?_, ?_⟩
  · rw [hbuilder]
    split <;> rfl
  · rw [← scan_curLine, hlm]
    split <;> rfl

/-- One entry for each line of the chunk. -/
def Counted (st : Scan) : Prop :=
  st.lm.length = st.genLine ∧ st.genLine = 1 + st.builder.count nl

theorem Noted.counted {st st' : Scan} (h : Noted st st') (hc : Counted st) : Counted st' := by
  obtain ⟨-, ext, hbuilder, hgen, hlm⟩ := h
  refine ⟨?_, ?_⟩
  · rw [hlm, hgen, List.length_append, List.length_replicate, hc.1]
  · rw [hgen, hbuilder, List.count_append, hc.2, Nat.add_assoc]

theorem scan_counted (sep : CString) (p : Bytes) : Counted (scan sep p) := by
  induction p using List.reverseRecOn with
  | nil => exact ⟨rfl, rfl⟩
  | append_singleton p c ih =>
      rw [scan_concat]
      refine (Noted.scanByte sep (scan sep p) c).counted ?_
      split <;> exact ih

/-! ## Where a byte is mapped -/

/-- The mode in which the scanner reads position `i`. -/
def codeAt (sep : CString) (tpl : Bytes) (i : Nat) : Bool := (scan sep (tpl.take i)).code

theorem codeAt_append {sep : CString} {p : Bytes} {i : Nat} (h : i ≤ p.length) (s : Bytes) :
    codeAt sep (p ++ s) i = codeAt sep p i := by
  rw [codeAt, codeAt, List.take_append_of_le_length h]

/-- The template bytes of mode `mode` among `cs` stand on lines that `lm` maps to the
lines they came from. -/
def MapsLines (sep : CString) (tpl : Bytes) (mode : Bool) (cs : List Cell) (lm : List Nat) : Prop :=
  ∀ pre i b post, cs = pre ++ Cell.src i b :: post → codeAt sep tpl i = mode →
    lm[(bytesOf pre).count nl]? = some (lineAt tpl i)

section

variable {sep : CString} {tpl p : Bytes} {mode : Bool} {cs : List Cell} {lm : List Nat}

/-- The entry of the line `r` lines below the last one. -/
theorem getElem?_entry {n : Nat} (hlen : lm.length = 1 + n) (m v r : Nat) (hr : r ≤ m) :
    (lm ++ List.replicate m v)[n + r]? = if r = 0 then lm.getLast? else some v := by
  split
  · next h =>
      have hlast : lm.length - 1 = n := by omega
      rw [h, Nat.add_zero, List.getElem?_append_left (by omega), List.getLast?_eq_getElem?, hlast]
  · next h =>
      rw [List.getElem?_append_right (by omega), List.getElem?_replicate, if_pos (by omega)]

/-- Cells are added below the ones that are there. -/
theorem mapsLines_append (hlen : lm.length = 1 + (bytesOf cs).count nl) (ext : List Cell) (v : Nat) :
    MapsLines sep tpl mode (cs ++ ext) (lm ++ List.replicate ((bytesOf ext).count nl) v) ↔
      MapsLines sep tpl mode cs lm ∧
        ∀ pre i b post, ext = pre ++ Cell.src i b :: post → codeAt sep tpl i = mode →
          (if nl ∈ bytesOf pre then some v else lm.getLast?) = some (lineAt tpl i) := by
  have hentry : ∀ pre x post, ext = pre ++ x :: post →
      (lm ++ List.replicate ((bytesOf ext).count nl) v)[(bytesOf (cs ++ pre)).count nl]?
        = if nl ∈ bytesOf pre then some v else lm.getLast? := by
    intro pre x post hext
    have hle : (bytesOf pre).count nl ≤ (bytesOf ext).count nl := by
      rw [hext, bytesOf_append, List.count_append]
      exact Nat.le_add_right _ _
    rw [bytesOf_append, List.count_append, getElem?_entry hlen _ _ _ hle]
    by_cases h : nl ∈ bytesOf pre
    · rw [if_pos h, if_neg (List.count_pos_iff.mpr h).ne']
    · rw [if_neg h, if_pos (List.count_eq_zero.mpr h)]
  constructor
  · intro h
    constructor
    · intro pre i b post hcs hmode
      have hlt : (bytesOf pre).count nl < lm.length := by
        rw [hlen, hcs, bytesOf_append, List.count_append]
        omega
      have hat := h pre i b (post ++ ext) (by rw [hcs]; simp) hmode
      rwa [List.getElem?_append_left hlt] at hat
    · intro pre i b post hext hmode
      rw [← hentry pre _ post hext]
      exact h (cs ++ pre) i b post (by rw [hext]; simp) hmode
  · rintro ⟨hold, hnew⟩ pre i b post hsplit hmode
    rcases List.append_eq_append_iff.mp hsplit with ⟨mid, rfl, hext⟩ | ⟨mid, hcs, hmid⟩
    · rw [hentry mid _ post hext]
      exact hnew mid i b post hext hmode
    · cases mid with
      | nil =>
          have hpre : cs ++ [] = pre := by simpa using hcs
          have hext : ext = [] ++ Cell.src i b :: post := by simpa using hmid.symm
          rw [← hpre, hentry [] _ post hext]
          exact hnew [] i b post hext hmode
      | cons x mid =>
          obtain ⟨rfl, -⟩ := List.cons.inj hmid
          have hat := hold pre i b mid hcs hmode
          have hlt := (List.getElem?_eq_some_iff.mp hat).1
          rwa [List.getElem?_append_left hlt]

/-- What is read later does not move what was read. -/
theorem mapsLines_concat (hpos : ∀ i ∈ posOf cs, i < p.length) (s : Bytes) :
    MapsLines sep (p ++ s) mode cs lm ↔ MapsLines sep p mode cs lm := by
  have hmem : ∀ {pre i b post}, cs = pre ++ Cell.src i b :: post → i ≤ p.length := by
    rintro pre i b post rfl
    exact (hpos i (mem_posOf_iff.mpr ⟨pre, b, post, rfl⟩)).le
  constructor <;> intro h pre i b post hcs hmode
  · have hat := h pre i b post hcs (by rwa [codeAt_append (hmem hcs)])
    rwa [lineAt_append (hmem hcs)] at hat
  · rw [codeAt_append (hmem hcs)] at hmode
    rw [lineAt_append (hmem hcs)]
    exact h pre i b post hcs hmode

end

/-! ## The map under the traced scanner -/

section

variable (sep : CString) (p : Bytes)

theorem trace_builder : bytesOf (trace sep p).builder = (scan sep p).builder :=
  congrArg Core.builder (erase_trace sep p)

/-- Positions of the chunk and of the text buffer have been read. -/
theorem trace_pos_lt {i : Nat} (h : i ∈ posOf ((trace sep p).builder ++ (trace sep p).buffer)) :
    i < p.length := by
  obtain ⟨pre, b, post, hsplit⟩ := mem_posOf_iff.mp h
  have hcells : Cell.src i b ∈ (trace sep p).cells := by
    rw [Traced.cells, ← List.append_assoc, hsplit]
    simp
  exact (List.getElem?_eq_some_iff.mp (trace_faithful sep p hcells)).1

theorem scan_lm_trace : (scan sep p).lm.length = 1 + (bytesOf (trace sep p).builder).count nl := by
  rw [trace_builder, (scan_counted sep p).1, (scan_counted sep p).2]

/-- The entries the next byte adds, for the cells it adds. -/
theorem lm_grows {c : Byte} {ext : List Cell}
    (h : (trace sep (p ++ [c])).builder = (trace sep p).builder ++ ext) :
    (scan sep (p ++ [c])).lm = (scan sep p).lm
      ++ List.replicate ((bytesOf ext).count nl) (lineAt (p ++ [c]) (p ++ [c]).length) := by
  obtain ⟨ext', hbuilder, hlm⟩ := lm_concat sep p c
  rw [← trace_builder, ← trace_builder, h, bytesOf_append, List.append_cancel_left_eq] at hbuilder
  rw [hlm, hbuilder]

end

/-! ## One-byte delimiters -/

/-- The cells that a byte passes on: none, the byte itself, or a backslash and the byte.
In code a newline is always passed on. -/
inductive Passed (t : Traced) (c : Byte) : List Cell → Prop
  | none : (t.code = true → c ≠ nl) → Passed t c []
  | byte : Passed t c [.src t.pos c]
  | both : t.escapeNext = true → Passed t c [.src (t.pos - 1) bsl, .src t.pos c]

/-- What a byte does where no partial match is held. -/
inductive OneStep (sep : CString) (t : Traced) (c : Byte) (t' : Traced) : Prop
  | passed (cs : List Cell) : ¬ t.Completes sep c → Passed t c cs →
      t'.builder = (t.emit cs).builder → t'.buffer = (t.emit cs).buffer → t'.code = t.code →
      OneStep sep t c t'
  | toggled : t.Completes sep c →
      t'.builder = t.builder ++ (gens [nl] ++ Traced.printStatement t.buffer) → t'.buffer = [] →
      t'.code = !t.code → OneStep sep t c t'

section

variable {d : Byte} {h0 : d ≠ 0} {p : Bytes}

theorem trace_noMatch : (trace (CString.single d h0) p).matchBuf = [] := by
  have hinv := scan_inv (CString.single d h0) p
  have hproper := hinv.proper (by simp [CString.single])
  have hpre : (scan (CString.single d h0) p).matchBuf <+: [d] := hinv.isPrefix
  rw [← bytesOf_eq_nil, trace_matchBuf]
  rcases List.prefix_cons_iff.mp hpre with h | ⟨s, h, hs⟩
  · exact h
  · refine absurd ?_ hproper
    rw [List.prefix_nil.mp hs] at h
    exact h

theorem scan_noMatch : (scan (CString.single d h0) p).matchBuf = [] := by
  rw [← trace_matchBuf, trace_noMatch, bytesOf_nil]

/-- Where cells are emitted to does not depend on the position, the match or a pending
backslash. -/
theorem emit_keeps {t u : Traced} (cs : List Cell) (hb : u.builder = t.builder)
    (hbuf : u.buffer = t.buffer) (hcode : u.code = t.code) :
    (u.emit cs).builder = (t.emit cs).builder ∧ (u.emit cs).buffer = (t.emit cs).buffer ∧
      (u.emit cs).code = t.code := by
  rw [Traced.emit_code]
  cases h : t.code <;> simp [Traced.emit, hcode, h, hb, hbuf]

/-- With a one-byte delimiter each byte is passed on as it is read, or toggles. -/
theorem oneStep (c : Byte) :
    OneStep (CString.single d h0) (trace (CString.single d h0) p) c
      (trace (CString.single d h0) (p ++ [c])) := by
  rw [trace_concat]
  generalize ht : trace (CString.single d h0) p = t
  have hm : t.matchBuf = [] := ht ▸ trace_noMatch
  by_cases hesc : t.escapeNext = true
  · have hstep : t.step (CString.single d h0) c = Traced.emit
        { t with pos := t.pos + 1, escapeNext := false }
        (Traced.escaped (CString.single d h0) t.code t.pos c) := by simp [Traced.step, hesc]
    have hnot : ¬ t.Completes (CString.single d h0) c := fun h =>
      absurd (hesc.symm.trans h.1) (by decide)
    obtain ⟨hb, hbuf, hcode⟩ := emit_keeps (t := t)
      (u := { t with pos := t.pos + 1, escapeNext := false })
      (Traced.escaped (CString.single d h0) t.code t.pos c) rfl rfl rfl
    rw [hstep]
    refine .passed _ hnot ?_ hb hbuf hcode
    unfold Traced.escaped
    split
    · next h => exact .none fun hc => absurd (hc.symm.trans h.1) (by decide)
    · split
      · exact .byte
      · exact .both hesc
  have hesc : t.escapeNext = false := by simpa using hesc
  by_cases hb : c = bsl
  · have hstep : t.step (CString.single d h0) c
        = { t with pos := t.pos + 1, escapeNext := true } := by simp [Traced.step, hesc, hb]
    have hnil : t.emit [] = t := by simp [Traced.emit]
    rw [hstep]
    refine .passed [] (fun h => h.2.1 hb) (.none fun _ => ?_) ?_ ?_ rfl
    · rw [hb]
      decide
    · rw [hnil]
    · rw [hnil]
  by_cases hd : c = d
  · have hall : bytesOf t.matchBuf ++ [c] = (CString.single d h0).bytes := by
      simp [hm, hd, CString.single]
    have hstep : t.step (CString.single d h0) c = Traced.toggle { t with pos := t.pos + 1 } := by
      simp only [Traced.step, hesc, hb, hall, Bool.false_eq_true, if_false, if_true]
    rw [hstep]
    refine .toggled ⟨hesc, hb, hall⟩ ?_ rfl rfl
    simp [Traced.toggle, Traced.flush]
  · have hall : bytesOf t.matchBuf ++ [c] ≠ (CString.single d h0).bytes := by
      simpa [hm, CString.single] using hd
    have hpre : ¬ bytesOf t.matchBuf ++ [c] <+: (CString.single d h0).bytes := by
      simpa [hm, CString.single, List.cons_prefix_cons] using hd
    have hstep : t.step (CString.single d h0) c
        = Traced.emit { t with pos := t.pos + 1, matchBuf := [] } [Cell.src t.pos c] := by
      simp only [Traced.step, hesc, hb, hall, hpre, Bool.false_eq_true, if_false]
      rw [hm, List.nil_append]
    obtain ⟨hbld, hbuf, hcode⟩ := emit_keeps (t := t)
      (u := { t with pos := t.pos + 1, matchBuf := [] })
      [Cell.src t.pos c] rfl rfl rfl
    rw [hstep]
    exact .passed _ (fun h => hall h.2.2) .byte hbld hbuf hcode

/-- Where a byte is passed on, it and its backslash are on the line being read. -/
theorem passed_line {sep : CString} {c : Byte} {cs : List Cell} (h : Passed (trace sep p) c cs)
    {pre post : List Cell} {i : Nat} {b : Byte} (hcs : cs = pre ++ Cell.src i b :: post) :
    nl ∉ bytesOf pre ∧ codeAt sep (p ++ [c]) i = (scan sep p).code ∧
      lineAt (p ++ [c]) i = lineAt p p.length ∧ i ≤ p.length := by
  have hread : codeAt sep (p ++ [c]) p.length = (scan sep p).code ∧
      lineAt (p ++ [c]) p.length = lineAt p p.length ∧ p.length ≤ p.length := by
    rw [codeAt_append le_rfl, lineAt_append le_rfl, codeAt, List.take_length]
    exact ⟨rfl, rfl, le_rfl⟩
  cases h with
  | none _ => exact absurd hcs (by simp)
  | byte =>
      cases pre with
      | cons _ _ => exact absurd hcs (by simp)
      | nil =>
          obtain ⟨rfl, -⟩ := Cell.src.inj (List.cons.inj hcs).1
          rw [trace_pos]
          exact ⟨by simp, hread⟩
  | both hesc =>
      obtain ⟨q, rfl, -, hcode, -⟩ := pending ((trace_escapeNext sep p).symm.trans hesc)
      rw [trace_pos] at hcs
      match pre, hcs with
      | [], hcs =>
          obtain ⟨rfl, -⟩ := Cell.src.inj (List.cons.inj hcs).1
          have hq : (q ++ [bsl]).length - 1 = q.length := by simp
          have hle : q.length ≤ (q ++ [bsl]).length := by simp
          have hbsl : bsl ≠ nl := by decide
          rw [hq, codeAt_append hle, lineAt_append hle, codeAt_append le_rfl, lineAt_append le_rfl,
            codeAt, List.take_length, lineAt_length, lineAt_length]
          exact ⟨by simp, hcode, by simp [hbsl], hle⟩
      | [x], hcs =>
          obtain ⟨rfl, htail⟩ := List.cons.inj hcs
          obtain ⟨rfl, -⟩ := Cell.src.inj (List.cons.inj htail).1
          have hbsl : nl ∉ [bsl] := by decide
          exact ⟨hbsl, hread⟩
      | _ :: _ :: pre, hcs => exact absurd hcs (by simp)

/-- What holds between two bytes: in code the last entry is the line being read, and code
bytes are mapped right; the text buffer holds text. -/
structure Placed (sep : CString) (p : Bytes) : Prop where
  here : (scan sep p).code = true → (scan sep p).lm.getLast? = some (lineAt p p.length)
  code : MapsLines sep p true (trace sep p).builder (scan sep p).lm
  text : ∀ i ∈ posOf (trace sep p).buffer, codeAt sep p i = false

theorem placed_nil (sep : CString) : Placed sep [] where
  here := fun h => absurd h (by simp [scan, Scan.init])
  code := fun pre i b post h => absurd h (by simp [trace, Traced.init])
  text := fun i h => absurd h (by simp [trace, Traced.init])

/-- The positions of a statement that prints text are those of the text. -/
theorem mem_posOf_of_print {cs pre post : List Cell} {i : Nat} {b : Byte}
    (h : Traced.printStatement cs = pre ++ Cell.src i b :: post) : i ∈ posOf cs := by
  rw [← Traced.posOf_printStatement]
  exact mem_posOf_iff.mpr ⟨pre, b, post, h⟩

/-- What a byte does to the chunk, the line map and the text buffer: in text it goes to the
buffer, in code to the chunk, and a delimiter moves the buffer into the chunk. -/
inductive LineStep (sep : CString) (p : Bytes) (c : Byte) : Prop
  | text (cs : List Cell) : ¬ (trace sep p).Completes sep c → Passed (trace sep p) c cs →
      (scan sep p).code = false → (scan sep (p ++ [c])).code = false →
      (trace sep (p ++ [c])).builder = (trace sep p).builder →
      (scan sep (p ++ [c])).lm = (scan sep p).lm →
      (trace sep (p ++ [c])).buffer = (trace sep p).buffer ++ cs → LineStep sep p c
  | code (cs : List Cell) : ¬ (trace sep p).Completes sep c → Passed (trace sep p) c cs →
      (scan sep p).code = true → (scan sep (p ++ [c])).code = true →
      (trace sep (p ++ [c])).builder = (trace sep p).builder ++ cs →
      (scan sep (p ++ [c])).lm = (scan sep p).lm
        ++ List.replicate ((bytesOf cs).count nl) (lineAt (p ++ [c]) (p ++ [c]).length) →
      (trace sep (p ++ [c])).buffer = (trace sep p).buffer → LineStep sep p c
  | toggled (cs : List Cell) : (trace sep p).Completes sep c →
      cs = gens [nl] ++ Traced.printStatement (trace sep p).buffer →
      (trace sep (p ++ [c])).builder = (trace sep p).builder ++ cs →
      (scan sep (p ++ [c])).lm = (scan sep p).lm
        ++ List.replicate ((bytesOf cs).count nl) (lineAt (p ++ [c]) (p ++ [c]).length) →
      (trace sep (p ++ [c])).buffer = [] →
      (scan sep (p ++ [c])).code = !(scan sep p).code → LineStep sep p c

theorem lineStep (c : Byte) : LineStep (CString.single d h0) p c := by
  have hcode := trace_code (CString.single d h0) p
  have hcode' := trace_code (CString.single d h0) (p ++ [c])
  cases @oneStep d h0 p c with
  | passed cs hnot hcs hb hbuf hsame =>
      rw [hcode, hcode'] at hsame
      cases hmode : (scan (CString.single d h0) p).code with
      | false =>
          simp only [Traced.emit, hcode.trans hmode, Bool.false_eq_true, if_false] at hb hbuf
          have hlm := @lm_grows (CString.single d h0) p c [] (by simp [hb])
          exact .text cs hnot hcs hmode (hsame.trans hmode) hb (by simpa using hlm) hbuf
      | true =>
          simp only [Traced.emit, hcode.trans hmode, if_true] at hb hbuf
          have hlm := lm_grows (CString.single d h0) p hb
          exact .code cs hnot hcs hmode (hsame.trans hmode) hb hlm hbuf
  | toggled hc hb hbuf hflip =>
      rw [hcode, hcode'] at hflip
      exact .toggled _ hc rfl hb (lm_grows (CString.single d h0) p hb) hbuf hflip

/-- Behind a statement that prints text, the last entry is the line of the delimiter. -/
theorem getLast?_toggled {lm lm' : List Nat} {cs : List Cell} {v : Nat}
    (hlm : lm' = lm ++ List.replicate ((bytesOf (gens [nl] ++ cs)).count nl) v) :
    lm'.getLast? = some v := by
  have hpos : (bytesOf (gens [nl] ++ cs)).count nl ≠ 0 := by simp
  rw [hlm, List.getLast?_append, List.getLast?_replicate, if_neg hpos, Option.some_or]

/-- Behind what a byte of code passes on, the last entry is still the line being read. -/
theorem getLast?_passed {sep : CString} {c : Byte} {cs : List Cell} {lm : List Nat}
    (hcs : Passed (trace sep p) c cs) (hcode : (scan sep p).code = true)
    (hlast : lm.getLast? = some (lineAt p p.length)) :
    (lm ++ List.replicate ((bytesOf cs).count nl) (lineAt (p ++ [c]) (p ++ [c]).length)).getLast?
      = some (lineAt (p ++ [c]) (p ++ [c]).length) := by
  rw [lineAt_length]
  cases hcs with
  | none hc =>
      have hne : c ≠ nl := hc ((trace_code sep p).trans hcode)
      simpa [hne, lineAt_length] using hlast
  | byte =>
      by_cases hc : c = nl
      · simp [hc]
      · simpa [hc, lineAt_length] using hlast
  | both _ =>
      have hbsl : bsl ≠ nl := by decide
      by_cases hc : c = nl
      · simp [hc, bytesOf, Cell.byte, hbsl]
      · simpa [hc, bytesOf, Cell.byte, hbsl, lineAt_length] using hlast

theorem Placed.concat (h : Placed (CString.single d h0) p) (c : Byte) :
    Placed (CString.single d h0) (p ++ [c]) := by
  have hlen := scan_lm_trace (CString.single d h0) p
  have hold : MapsLines (CString.single d h0) (p ++ [c]) true
      (trace (CString.single d h0) p).builder (scan (CString.single d h0) p).lm := by
    refine (mapsLines_concat (fun i hi => ?_) [c]).mpr h.code
    exact trace_pos_lt (CString.single d h0) p (by simp [hi])
  have htext : ∀ i ∈ posOf (trace (CString.single d h0) p).buffer,
      codeAt (CString.single d h0) (p ++ [c]) i = false := by
    intro i hi
    have hlt := trace_pos_lt (CString.single d h0) p (i := i) (by simp [hi])
    rw [codeAt_append hlt.le]
    exact h.text i hi
  cases @lineStep d h0 p c with
  | text cs _ hcs hmode hmode' hb hlm hbuf =>
      refine ⟨fun hc => absurd (hmode'.symm.trans hc) (by decide), ?_, fun i hi => ?_⟩
      · rw [hb, hlm]
        exact hold
      · rw [hbuf, posOf_append, List.mem_append] at hi
        rcases hi with hi | hi
        · exact htext i hi
        · obtain ⟨pre, b, post, hsplit⟩ := mem_posOf_iff.mp hi
          exact (passed_line hcs hsplit).2.1.trans hmode
  | code cs _ hcs hmode _ hb hlm hbuf =>
      have hlast := h.here hmode
      refine ⟨fun _ => ?_, ?_, fun i hi => htext i (by rwa [hbuf] at hi)⟩
      · rw [hlm]
        exact getLast?_passed hcs hmode hlast
      · rw [hb, hlm, mapsLines_append hlen]
        refine ⟨hold, fun pre i b post hsplit _ => ?_⟩
        obtain ⟨hpre, -, hline, -⟩ := passed_line hcs hsplit
        rw [if_neg hpre, hline]
        exact hlast
  | toggled cs _ hcs hb hlm hbuf _ =>
      subst hcs
      refine ⟨fun _ => getLast?_toggled hlm, ?_, fun i hi => absurd hi (by simp [hbuf])⟩
      rw [hb, hlm, mapsLines_append hlen]
      refine ⟨hold, fun pre i b post hsplit hmode => ?_⟩
      -- only text is printed
      have hi : i ∈ posOf (gens [nl] ++ Traced.printStatement
          (trace (CString.single d h0) p).buffer) := mem_posOf_iff.mpr ⟨pre, b, post, hsplit⟩
      rw [posOf_append, posOf_gens, List.nil_append, Traced.posOf_printStatement] at hi
      exact absurd ((htext i hi).symm.trans hmode) (by decide)

theorem placed (p : Bytes) : Placed (CString.single d h0) p := by
  induction p using List.reverseRecOn with
  | nil => exact placed_nil _
  | append_singleton p c ih => exact ih.concat c

/-! ### At end of file -/

/-- The backslash that is still pending at end of file. -/
def pendingCells (t : Traced) : List Cell := if t.escapeNext then [.src (t.pos - 1) bsl] else []

/-- The text that the end of file ends, with a pending backslash. -/
def lastText (sep : CString) (tpl : Bytes) : List Cell :=
  ((trace sep tpl).emit (pendingCells (trace sep tpl))).buffer

/-- The cells that follow the loop. -/
def lastCells (sep : CString) (tpl : Bytes) : List Cell :=
  (if (trace sep tpl).code then pendingCells (trace sep tpl) else [])
    ++ Traced.printStatement (lastText sep tpl)

variable {tpl : Bytes}

theorem chunkCells_eq : chunkCells (CString.single d h0) tpl
    = (trace (CString.single d h0) tpl).builder ++ lastCells (CString.single d h0) tpl := by
  unfold chunkCells lastCells lastText Traced.finish pendingCells
  generalize (if (trace (CString.single d h0) tpl).escapeNext then
    [Cell.src ((trace (CString.single d h0) tpl).pos - 1) bsl] else []) = pend
  have hm : ((trace (CString.single d h0) tpl).emit pend).matchBuf = [] := by
    rw [Traced.emit_matchBuf, trace_noMatch]
  have hnil : ∀ u : Traced, u.emit [] = u := fun u => by simp [Traced.emit]
  simp only [hm, hnil, Traced.flush]
  cases h : (trace (CString.single d h0) tpl).code <;> simp [Traced.emit, h]

theorem finish_lm : (finish (scan (CString.single d h0) tpl)).lm
    = (scan (CString.single d h0) tpl).lm
      ++ List.replicate ((bytesOf (lastCells (CString.single d h0) tpl)).count nl)
        (lineAt tpl tpl.length) := by
  have hbuilder : (finish (scan (CString.single d h0) tpl)).builder
      = (scan (CString.single d h0) tpl).builder ++ bytesOf (lastCells (CString.single d h0) tpl) := by
    have hchunk := bytesOf_chunkCells (CString.single d h0) tpl
    rw [chunkCells_eq, bytesOf_append, trace_builder] at hchunk
    exact hchunk.symm
  rw [(Noted.finish scan_noMatch).lm_eq hbuilder, scan_curLine]

/-- A pending backslash is on the last line, in the mode that the file ends in. -/
theorem pendingCells_line {pre post : List Cell} {i : Nat} {b : Byte}
    (h : pendingCells (trace (CString.single d h0) tpl) = pre ++ Cell.src i b :: post) :
    pre = [] ∧ codeAt (CString.single d h0) tpl i = (scan (CString.single d h0) tpl).code ∧
      lineAt tpl i = lineAt tpl tpl.length := by
  unfold pendingCells at h
  split at h
  · next hesc =>
      cases pre with
      | cons _ _ => exact absurd h (by simp)
      | nil =>
          obtain ⟨rfl, -⟩ := Cell.src.inj (List.cons.inj h).1
          obtain ⟨q, rfl, -, hcode, -⟩ := pending ((trace_escapeNext _ tpl).symm.trans hesc)
          have hq : (q ++ [bsl]).length - 1 = q.length := by simp
          have hle : q.length ≤ (q ++ [bsl]).length := by simp
          have hbsl : bsl ≠ nl := by decide
          rw [trace_pos, hq, codeAt_append le_rfl, lineAt_append le_rfl, codeAt, List.take_length,
            lineAt_length, lineAt_length]
          exact ⟨rfl, hcode, by simp [hbsl]⟩
  · exact absurd h (by simp)

/-- The last text holds text only. -/
theorem lastText_text {i : Nat} (h : i ∈ posOf (lastText (CString.single d h0) tpl)) :
    codeAt (CString.single d h0) tpl i = false := by
  have hold := (@placed d h0 tpl).text i
  unfold lastText Traced.emit at h
  split at h
  · exact hold h
  · next hcode =>
      have hmode : (scan (CString.single d h0) tpl).code = false := by
        rw [← trace_code]
        simpa using hcode
      rw [posOf_append, List.mem_append] at h
      rcases h with h | h
      · exact hold h
      · obtain ⟨pre, b, post, hsplit⟩ := mem_posOf_iff.mp h
        exact (pendingCells_line hsplit).2.1.trans hmode

end

/-- The lines that code bytes stand on are mapped to the lines they came from. -/
theorem chunk_mapsLines {d : Byte} {h0 : d ≠ 0} (tpl : Bytes) :
    MapsLines (CString.single d h0) tpl true (chunkCells (CString.single d h0) tpl)
      (finish (scan (CString.single d h0) tpl)).lm := by
  have hplaced := @placed d h0 tpl
  rw [chunkCells_eq, finish_lm, mapsLines_append (scan_lm_trace _ tpl)]
  refine ⟨hplaced.code, fun pre i b post hsplit hmode => ?_⟩
  unfold lastCells at hsplit
  rcases List.append_eq_append_iff.mp hsplit.symm with ⟨mid, hcells, hmid⟩ | ⟨mid, rfl, hprint⟩
  · cases hcode : (trace (CString.single d h0) tpl).code with
    | false =>
        obtain ⟨rfl, rfl⟩ : pre = [] ∧ mid = [] := by simpa [hcode] using hcells
        have hi := @mem_posOf_of_print _ [] _ _ _ hmid.symm
        exact absurd ((lastText_text hi).symm.trans hmode) (by decide)
    | true =>
        have hcode' := (trace_code _ tpl).symm.trans hcode
        rw [hcode, if_pos rfl] at hcells
        cases mid with
        | nil =>
            have hi := @mem_posOf_of_print _ [] _ _ _ hmid.symm
            exact absurd ((lastText_text hi).symm.trans hmode) (by decide)
        | cons x mid =>
            obtain ⟨rfl, -⟩ := List.cons.inj hmid
            obtain ⟨rfl, -, hline⟩ := pendingCells_line hcells
            rw [if_neg (by simp), hline]
            exact hplaced.here hcode'
  · have hi := mem_posOf_of_print hprint
    exact absurd ((lastText_text hi).symm.trans hmode) (by decide)

/-- Every template byte of mode `mode` stands on a line of the chunk that the map sends to
the byte's own line. -/
def MappedRight (sep : CString) (tpl : Bytes) (mode : Bool) : Prop :=
  ∀ k i b, (chunkCells sep tpl)[k]? = some (.src i b) → codeAt sep tpl i = mode →
    (finish (scan sep tpl)).lm[lineAt (chunk sep tpl) k - 1]? = some (lineAt tpl i)

theorem mappedRight_iff {sep : CString} {tpl : Bytes} {mode : Bool} :
    MappedRight sep tpl mode ↔
      MapsLines sep tpl mode (chunkCells sep tpl) (finish (scan sep tpl)).lm := by
  have hline : ∀ k, lineAt (chunk sep tpl) k - 1
      = (bytesOf ((chunkCells sep tpl).take k)).count nl := by
    intro k
    rw [← bytesOf_chunkCells, lineAt, Nat.add_sub_cancel_left, bytesOf, bytesOf, List.map_take]
  constructor
  · intro h pre i b post hsplit hmode
    have hk : (chunkCells sep tpl)[pre.length]? = some (.src i b) := by simp [hsplit]
    have hat := h pre.length i b hk hmode
    rwa [hline, hsplit, List.take_left] at hat
  · intro h k i b hk hmode
    obtain ⟨hlt, hcell⟩ := List.getElem?_eq_some_iff.mp hk
    have hsplit : chunkCells sep tpl
        = (chunkCells sep tpl).take k ++ Cell.src i b :: (chunkCells sep tpl).drop (k + 1) := by
      rw [← hcell, List.getElem_cons_drop, List.take_append_drop]
    rw [hline]
    exact h _ i b _ hsplit hmode

/-- **The line map has one entry for each line of the chunk, and the entry of the line
that a code byte stands on is the line the byte came from.** -/
theorem lineMap_code {d : Byte} (h0 : d ≠ 0) (tpl : Bytes) :
    let sep := CString.single d h0
    let st := finish (scan sep tpl)
    (st.lm.length = st.genLine ∧ st.genLine = 1 + (chunk sep tpl).count nl) ∧
      MappedRight sep tpl true :=
  ⟨(Noted.finish scan_noMatch).counted (scan_counted _ tpl),
    mappedRight_iff.mpr (chunk_mapsLines tpl)⟩

/-- In the template `a`, newline, `%x` the byte `x` is at 3, on line 2, and at 19 in the
chunk, on its line 4. -/
theorem lineMap_code_percent :
    (finish (scan (CString.single 37 (by decide)) (ascii "a\n%x"))).lm[lineAt
      (chunk (CString.single 37 (by decide)) (ascii "a\n%x")) 19 - 1]? = some 2 :=
  have hcell : (chunkCells (CString.single 37 (by decide)) (ascii "a\n%x"))[19]?
      = some (.src 3 120) := by decide
  (lineMap_code (by decide) (ascii "a\n%x")).2 19 3 120 hcell (by decide)

end Tmg
