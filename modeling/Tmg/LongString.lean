/-
# `Tmg.LongString` — the literals of `flush_text_buffer`, as Lua reads them

`flush_text_buffer` wraps a text `t` in a long string `[=⋯=[t]=⋯=]` whose level
`max_equals` it computes from `t`.  This module settles what Lua makes of it.

    level        IsLevel ']' '=' t (maxEquals t)                      (`maxEquals_isLevel`)
    extent       the literal ends at the bracket that was emitted
                   ↔  t does not end in ']' and `level` times '='     (`literal_closes_iff`)
    value        the literal is worth t, for a t that ends in neither
                   ↔  t holds no '\r' and does not open with '\n'     (`literal_value_iff`)

The reading rules are those of the Lua manual: `readLong` for the extent, a long
string of level `n` running to the first `]`, `n` times `=`, `]`; `luaValue` for
the value, a line end right after the opening bracket being skipped and every
other line end (`\n`, `\r`, `\r\n`, `\n\r`) being read as `\n`.
-/
import Tmg.Scanner

namespace Tmg

open Lib

/-! ## The level -/

/-- One turn of the search: the value `m'` with which it goes on exceeds the level of a mark
at this position, if there is one, and is no more than that. -/
theorem maxEqualsFrom_cons (m : Nat) (c : Byte) (rest : Bytes) :
    ∃ m', maxEqualsFrom m (c :: rest) = maxEqualsFrom m' rest ∧ m ≤ m' ∧
      (∀ k, closing rbr eqs k <+: c :: rest → k < m') ∧
        (m' = m ∨ closing rbr eqs (m' - 1) <+: c :: rest) := by
  by_cases hc : c = rbr
  · by_cases hend : (rest.dropWhile (· = eqs)).head? = some rbr
    · have hhere : ∀ k, closing rbr eqs k <+: c :: rest → k = (rest.takeWhile (· = eqs)).length := by
        intro k hk
        exact ((run_prefix_iff rbr_ne_eqs).mp (closing_prefix_cons_iff.mp hk).2).1.symm
      have hthis : closing rbr eqs (rest.takeWhile (· = eqs)).length <+: c :: rest :=
        closing_prefix_cons_iff.mpr ⟨hc, (run_prefix_iff rbr_ne_eqs).mpr ⟨rfl, hend⟩⟩
      by_cases hle : m ≤ (rest.takeWhile (· = eqs)).length
      · refine ⟨_, ?_, Nat.le_succ_of_le hle, ?_, Or.inr hthis⟩
        · simp [maxEqualsFrom, hc, hend, hle]
        · intro k hk
          rw [hhere k hk]
          exact Nat.lt_succ_self _
      · refine ⟨m, ?_, Nat.le_refl m, ?_, Or.inl rfl⟩
        · simp [maxEqualsFrom, hc, hend, hle]
        · intro k hk
          rw [hhere k hk]
          omega
    · refine ⟨m, ?_, Nat.le_refl m, ?_, Or.inl rfl⟩
      · simp [maxEqualsFrom, hc, hend]
      · intro k hk
        exact absurd ((run_prefix_iff rbr_ne_eqs).mp (closing_prefix_cons_iff.mp hk).2).2 hend
  · refine ⟨m, ?_, Nat.le_refl m, ?_, Or.inl rfl⟩
    · simp [maxEqualsFrom, hc]
    · intro k hk
      exact absurd (closing_prefix_cons_iff.mp hk).1 hc

/-- What the search computes: nothing below its start value, every level inside
the buffer exceeded, and no more than that. -/
theorem maxEqualsFrom_spec (t : Bytes) :
    ∀ m : Nat, m ≤ maxEqualsFrom m t ∧
      (∀ k, closing rbr eqs k <:+: t → k < maxEqualsFrom m t) ∧
      (maxEqualsFrom m t = m ∨ closing rbr eqs (maxEqualsFrom m t - 1) <:+: t) := by
  induction t with
  | nil =>
      intro m
      refine ⟨Nat.le_refl _, ?_, Or.inl rfl⟩
      intro k hk
      exact absurd (List.infix_nil.mp hk) (closing_ne_nil rbr eqs k)
  | cons c rest ih =>
      intro m
      obtain ⟨m', heq, hm, hhere, hleast⟩ := maxEqualsFrom_cons m c rest
      obtain ⟨hge, habove, hrest⟩ := ih m'
      rw [heq]
      refine ⟨hm.trans hge, ?_, ?_⟩
      · intro k hk
        rcases List.infix_cons_iff.mp hk with hpre | hin
        · exact (hhere k hpre).trans_le hge
        · exact habove k hin
      · rcases hrest with hsame | hin
        · rw [hsame]
          exact hleast.imp_right List.IsPrefix.isInfix
        · exact Or.inr (hin.trans (List.suffix_cons c rest).isInfix)

/-- `max_equals` is one more than the highest level of a mark in the buffer. -/
theorem maxEquals_isLevel (t : Bytes) : IsLevel rbr eqs t (maxEquals t) := by
  obtain ⟨_, habove, hleast⟩ := maxEqualsFrom_spec t 0
  exact ⟨habove, hleast⟩

/-! ## Reading a long string -/

/-- Lua's rule for the extent of a long string.  The input begins at the opening
bracket; the result is the body as written and what follows the literal. -/
def readLong : Bytes → Option (Bytes × Bytes)
  | [] => none
  | c :: s =>
      if c = lbr ∧ (s.dropWhile (· = eqs)).head? = some lbr then
        cutAt (closing rbr eqs (s.takeWhile (· = eqs)).length) (s.dropWhile (· = eqs)).tail
      else none

/-- A line end is one of `\n`, `\r`, `\r\n` and `\n\r`. -/
def isEol (c : Byte) : Bool := c = nl || c = cr

/-- A line end at the head of the body is skipped. -/
def skipEol : Bytes → Bytes
  | [] => []
  | [c] => if isEol c then [] else [c]
  | c :: d :: s =>
      if isEol c then (if isEol d ∧ d ≠ c then s else d :: s) else c :: d :: s

/-- Every line end is read as `\n`. -/
def normEol : Bytes → Bytes
  | [] => []
  | [c] => if isEol c then [nl] else [c]
  | c :: d :: s =>
      if isEol c then (if isEol d ∧ d ≠ c then nl :: normEol s else nl :: normEol (d :: s))
      else c :: normEol (d :: s)

/-- The value of a long string with the body `raw`. -/
def luaValue (raw : Bytes) : Bytes := normEol (skipEol raw)

/-- A long string: its value, and what follows the literal. -/
def readLongString (s : Bytes) : Option (Bytes × Bytes) :=
  (readLong s).map fun p => (luaValue p.1, p.2)

/-- What `flush_text_buffer` appends after `tmg.print(`. -/
def emittedLiteral (st : Scan) : Bytes :=
  (flushTextBuffer st).builder.drop (st.builder.length + (ascii "tmg.print(").length)

theorem flushTextBuffer_builder (st : Scan) :
    (flushTextBuffer st).builder = st.builder ++ printStatement st.buffer :=
  congrArg Core.builder (core_flushTextBuffer st)

theorem emittedLiteral_eq {st : Scan} (h : st.buffer ≠ []) :
    emittedLiteral st = longLiteral st.buffer ++ ascii ")\n" := by
  rw [emittedLiteral, flushTextBuffer_builder, printStatement, if_neg h, ← List.append_assoc]
  rw [← List.length_append, List.drop_left]

/-- The literal's opening bracket is read back; its body runs to the first mark of
the level. -/
theorem readLong_longLiteral (t r : Bytes) :
    readLong (longLiteral t ++ r)
      = cutAt (closing rbr eqs (maxEquals t)) (t ++ (closing rbr eqs (maxEquals t) ++ r)) := by
  have hlbr : lbr ≠ eqs := by decide
  rw [longLiteral, List.cons_append, List.append_assoc, List.cons_append, List.append_assoc]
  rw [readLong, takeWhile_run hlbr, dropWhile_run hlbr]
  simp

/-! ## Extent -/

/-- `t` ends in `]` and as many `=` as the level of its literal has. -/
def EndsInStem (t : Bytes) : Prop := ∃ n, IsLevel rbr eqs t n ∧ closingStem rbr eqs n <:+ t

theorem endsInStem_iff {t : Bytes} :
    EndsInStem t ↔ closingStem rbr eqs (maxEquals t) <:+ t := by
  constructor
  · rintro ⟨n, hn, hsuf⟩
    rwa [(maxEquals_isLevel t).unique hn]
  · intro h
    exact ⟨_, maxEquals_isLevel t, h⟩

/-- A text that ends in neither `]` nor `=` does not end in a stem. -/
theorem not_endsInStem {t : Bytes} (hr : t.getLast? ≠ some rbr) (he : t.getLast? ≠ some eqs) :
    ¬ EndsInStem t := by
  rintro ⟨n, -, x, rfl⟩
  cases n with
  | zero => simp [closingStem] at hr
  | succ n =>
      rw [closingStem_succ, ← List.append_assoc, List.getLast?_concat] at he
      exact he rfl

/-- **The literal of a text ends at the bracket `flush_text_buffer` emitted exactly
when the text does not end in `]` and as many `=` as the literal's level.** -/
theorem literal_closes_iff (st : Scan) (h : st.buffer ≠ []) :
    readLong (emittedLiteral st) = some (st.buffer, ascii ")\n") ↔ ¬ EndsInStem st.buffer := by
  rw [emittedLiteral_eq h, readLong_longLiteral, (maxEquals_isLevel st.buffer).cutAt_iff rbr_ne_eqs,
    endsInStem_iff]

/-- The text `a]b`. -/
theorem literal_closes_inner :
    readLong (emittedLiteral { Scan.init with buffer := ascii "a]b" })
      = some (ascii "a]b", ascii ")\n") :=
  (literal_closes_iff { Scan.init with buffer := ascii "a]b" } (by decide)).mpr
    (not_endsInStem (by decide) (by decide))

/-- The template `]` holds the text `]`, whose literal `[[]]]` ends one byte early:
the bracket that was meant to close it is left over for the parser. -/
theorem literal_closes_early :
    (scan (CString.single 37 (by decide)) [rbr]).buffer = [rbr] ∧
      readLong (emittedLiteral (scan (CString.single 37 (by decide)) [rbr]))
        = some ([], ascii "])\n") ∧
      some ([], ascii "])\n") ≠ some ([rbr], ascii ")\n") := by decide

/-! ## Value -/

theorem cr_notMem_normEol : ∀ s : Bytes, cr ∉ normEol s
  | [] => by simp [normEol]
  | [c] => by
      rw [normEol]
      split
      · simp [nl, cr]
      · next hc =>
          have hne : cr ≠ c := by
            rintro rfl
            simp [isEol] at hc
          simpa using hne
  | c :: d :: s => by
      rw [normEol]
      have h1 := cr_notMem_normEol s
      have h2 := cr_notMem_normEol (d :: s)
      split
      · split <;> simp_all [nl, cr]
      · next hc =>
          have hne : cr ≠ c := by
            rintro rfl
            simp [isEol] at hc
          simp [hne, h2]

theorem length_normEol_le : ∀ s : Bytes, (normEol s).length ≤ s.length
  | [] => by simp [normEol]
  | [c] => by
      rw [normEol]
      split <;> simp
  | c :: d :: s => by
      rw [normEol]
      have h1 := length_normEol_le s
      have h2 := length_normEol_le (d :: s)
      simp only [List.length_cons] at *
      split
      · split <;> simp <;> omega
      · simp; omega

/-- Without `\r` every line end is already a `\n`. -/
theorem normEol_eq_self : ∀ {s : Bytes}, cr ∉ s → normEol s = s
  | [], _ => rfl
  | [c], h => by
      rw [normEol]
      by_cases hc : c = nl
      · simp [hc, isEol]
      · have : c ≠ cr := by rintro rfl; simp at h
        simp [isEol, hc, this]
  | c :: d :: s, h => by
      have hc : c ≠ cr := by rintro rfl; simp at h
      have hd : d ≠ cr := by rintro rfl; simp at h
      have ih : normEol (d :: s) = d :: s := normEol_eq_self (by simp_all)
      rw [normEol, ih]
      by_cases hcn : c = nl
      · have hpair : ¬ (isEol d = true ∧ d ≠ c) := by
          rintro ⟨hdn, hne⟩
          simp [isEol, hd] at hdn
          exact hne (hdn.trans hcn.symm)
        rw [if_neg hpair]
        simp [isEol, hcn]
      · simp [isEol, hcn, hc]

/-- The value gives the body back exactly when the body holds no `\r` and does not
open with a line end. -/
theorem luaValue_eq_self_iff (t : Bytes) : luaValue t = t ↔ cr ∉ t ∧ t.head? ≠ some nl := by
  constructor
  · intro h
    have hcr : cr ∉ t := h ▸ cr_notMem_normEol (skipEol t)
    refine ⟨hcr, ?_⟩
    intro hhead
    obtain ⟨t', rfl⟩ : ∃ t', t = nl :: t' := List.head?_eq_some_iff.mp hhead
    -- the line end is skipped, and nothing makes up for it
    have hskip : (skipEol (nl :: t')).length ≤ t'.length := by
      cases t' with
      | nil => simp [skipEol, isEol]
      | cons d s =>
          have heol : isEol nl = true := by decide
          rw [skipEol, if_pos heol]
          by_cases hpair : isEol d = true ∧ d ≠ nl
          · simp [hpair]
          · rw [if_neg hpair]
    have hlen := length_normEol_le (skipEol (nl :: t'))
    have heq := congrArg List.length h
    simp only [luaValue, List.length_cons] at heq
    omega
  · rintro ⟨hcr, hhead⟩
    have hskip : skipEol t = t := by
      match t, hcr, hhead with
      | [], _, _ => rfl
      | [c], hcr, hhead =>
          have hc : c ≠ cr := by rintro rfl; simp at hcr
          simp [skipEol, isEol, hc] at hhead ⊢
          exact hhead
      | c :: d :: s, hcr, hhead =>
          have hc : c ≠ cr := by rintro rfl; simp at hcr
          simp [skipEol, isEol, hc] at hhead ⊢
          exact fun h => absurd h hhead
    rw [luaValue, hskip, normEol_eq_self hcr]

/-- **The literal of a text that ends in neither `]` nor `=` is worth the text
exactly when the text holds no `\r` and does not open with `\n`.** -/
theorem literal_value_iff (st : Scan) (h : st.buffer ≠ [])
    (hr : st.buffer.getLast? ≠ some rbr) (he : st.buffer.getLast? ≠ some eqs) :
    readLongString (emittedLiteral st) = some (st.buffer, ascii ")\n") ↔
      cr ∉ st.buffer ∧ st.buffer.head? ≠ some nl := by
  have hraw := (literal_closes_iff st h).mpr (not_endsInStem hr he)
  rw [readLongString, hraw, ← luaValue_eq_self_iff]
  simp

/-- The text `a`, newline, `b`. -/
theorem literal_value_inner :
    readLongString (emittedLiteral { Scan.init with buffer := ascii "a\nb" })
      = some (ascii "a\nb", ascii ")\n") :=
  (literal_value_iff { Scan.init with buffer := ascii "a\nb" } (by decide) (by decide)
    (by decide)).mpr (by decide)

/-- In the template `%%`, newline, `x` the text begins with the newline, which is not
printed. -/
theorem literal_value_loses_newline :
    (scan (CString.single 37 (by decide)) (ascii "%%\nx")).buffer = ascii "\nx" ∧
      readLongString (emittedLiteral (scan (CString.single 37 (by decide)) (ascii "%%\nx")))
        = some (ascii "x", ascii ")\n") ∧
      some (ascii "x", ascii ")\n") ≠ some (ascii "\nx", ascii ")\n") := by decide

end Tmg
