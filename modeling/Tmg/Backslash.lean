/-
# `Tmg.Backslash` — which backslashes reach the chunk

A backslash is there to stop a delimiter: "If `\` wasn't suppressing a delimiter, pass
`\` as raw text".  The test is made on one byte of lookahead, `c == sep[0]`, so with a
delimiter of two bytes or more it also drops the backslash before a byte that only
begins like the delimiter.  And a byte that was held in `match_buf` before the backslash is
still there behind it, so that the delimiter can be completed across the escape:

    delimiter @@, template \@x      the text @x
    delimiter @@, template @\@@x    the text @, and a delimiter

`keepsBackslashes_iff` gives the exact condition, in each mode.  What is left out was
accounted for in `Tmg.Provenance`: a backslash is not the byte of a delimiter, so one
that is missing was dropped by that test or by a line continuation.  What the bytes of a
delimiter behind an escape do is a question about the matcher of `Tmg.Toggle`
(`suppresses_iff`).
-/
import Tmg.Order
import Tmg.Toggle

namespace Tmg

open Lib

/-- The delimiter stands behind the backslash that follows `p`, and is not recognised: the
mode stays what it is at each of its bytes. -/
def Suppresses (sep : CString) (p r : Bytes) : Prop :=
  sep.bytes <+: r ∧ ∀ q, q <+: sep.bytes → (scan sep (p ++ bsl :: q)).code = (scan sep p).code

/-- Every backslash read in the mode `code` is in the chunk, but for those that suppress a
delimiter or, in text, stand before a newline. -/
def KeepsBackslashes (sep : CString) (tpl : Bytes) (code : Bool) : Prop :=
  ∀ p r, tpl = p ++ bsl :: r → (scan sep p).code = code → (code = false → r.head? ≠ some nl) →
    p.length ∈ posOf (chunkCells sep tpl) ∨ Suppresses sep p r

/-- In the mode `code`, an escaped byte that begins like the delimiter begins it, and the
rest of this delimiter does not complete the match that was held before the backslash. -/
def SuppressOk (sep : CString) (code : Bool) (st : Scan) (c : Byte) (rest : Bytes) : Prop :=
  st.escapeNext = true → st.code = code → (code = false → c ≠ nl) →
    suppressesDelim sep c = true →
      sep.bytes <+: c :: rest ∧ ¬ sep.bytes.drop st.matchBuf.length <+: sep.bytes.tail

instance (sep : CString) (code : Bool) (st : Scan) (c : Byte) (rest : Bytes) :
    Decidable (SuppressOk sep code st c rest) :=
  inferInstanceAs (Decidable (_ → _))

/-! ## When the delimiter is suppressed -/

/-- The mode is the same after every beginning of `s` exactly when none of its bytes
changes it. -/
theorem code_eq_iff (sep : CString) :
    ∀ (s : Bytes) (i : Nat) (st : Scan),
      (∀ q, q <+: s → (q.foldl (scanByte sep) st).code = st.code) ↔ togglesFrom sep i st s = []
  | [], _, _ => by simp [togglesFrom]
  | c :: s, i, st => by
      have ih := code_eq_iff sep s (i + 1) (scanByte sep st c)
      rw [togglesFrom]
      constructor
      · intro h
        have hc : (scanByte sep st c).code = st.code := h [c] (by simp)
        rw [if_pos hc]
        refine ih.mp fun q hq => ?_
        rw [hc]
        exact h (c :: q) (List.cons_prefix_cons.mpr ⟨rfl, hq⟩)
      · intro h
        split at h
        · next hc =>
            intro q hq
            cases q with
            | nil => rfl
            | cons b q =>
                obtain ⟨rfl, htail⟩ := List.cons_prefix_cons.mp hq
                exact (ih.mpr h q htail).trans hc
        · exact absurd h (by simp)

section

variable {sep : CString} {p : Bytes} {c : Byte}

/-- An escaped byte leaves the mode and the match as they are. -/
theorem scan_escaped (h : (scan sep p).escapeNext = true) :
    (scan sep (p ++ [c])).escapeNext = false ∧ (scan sep (p ++ [c])).code = (scan sep p).code ∧
      (scan sep (p ++ [c])).matchBuf = (scan sep p).matchBuf := by
  have hcore := core_scan_concat sep p c
  have hesc : (scan sep p).core.escapeNext = true := h
  rw [Core.step, if_pos hesc] at hcore
  have hf := congrArg Core.escapeNext hcore
  have hcode := congrArg Core.code hcore
  have hmatch := congrArg Core.matchBuf hcore
  rw [Core.emit_escapeNext] at hf
  rw [Core.emit_code] at hcode
  rw [Core.emit_matchBuf] at hmatch
  exact ⟨hf, hcode, hmatch⟩

/-- **The first byte of the delimiter is passed on; the others complete no delimiter exactly
when they do not complete the match that was held.** -/
theorem suppresses_iff {r : Bytes} (hsep : bsl ∉ sep.bytes) (hesc : (scan sep p).escapeNext = false)
    (hfirst : suppressesDelim sep c = true) :
    Suppresses sep p (c :: r) ↔
      sep.bytes <+: c :: r ∧
        ¬ sep.bytes.drop (scan sep (p ++ [bsl])).matchBuf.length <+: sep.bytes.tail := by
  obtain ⟨t, ht⟩ : ∃ t, sep.bytes = c :: t := by
    have hhead : sep.bytes.head? = some c := by simpa [suppressesDelim] using hfirst
    exact ⟨sep.bytes.tail, List.eq_cons_of_mem_head? hhead⟩
  obtain ⟨hpend, hmode⟩ := scan_bsl hesc
  obtain ⟨hsettled, hcode, hmatch⟩ := scan_escaped (c := c) hpend
  have hinv := scan_inv sep (p ++ [bsl])
  have hne : sep.bytes ≠ [] := by simp [ht]
  have hshort : t.length < sep.bytes.length := by simp [ht]
  have hnobsl : bsl ∉ t := fun h => hsep (ht ▸ List.mem_cons_of_mem c h)
  -- the bytes behind the escaped one are read by the matcher, from the match that was held
  have hrest : (∀ q, q <+: t → (q.foldl (scanByte sep) (scan sep (p ++ [bsl] ++ [c]))).code
        = (scan sep (p ++ [bsl] ++ [c])).code) ↔
      ¬ sep.bytes.drop (scan sep (p ++ [bsl])).matchBuf.length <+: t := by
    rw [code_eq_iff sep t 0, togglesFrom_eq sep t 0 _ hnobsl hsettled, hmatch]
    exact resetEndsFrom_eq_nil_iff 0 hinv.isPrefix (hinv.proper hne) hshort
  have hread : ∀ q, scan sep (p ++ bsl :: c :: q)
      = q.foldl (scanByte sep) (scan sep (p ++ [bsl] ++ [c])) := by
    intro q
    have hsplit : p ++ bsl :: c :: q = p ++ [bsl] ++ [c] ++ q := by simp
    rw [hsplit, scan, List.foldl_append]
    rfl
  rw [Suppresses, ht, List.tail_cons, ← ht, ← hrest]
  refine and_congr_right fun _ => ⟨fun h q hq => ?_, fun h q hq => ?_⟩
  · rw [← hread, hcode, hmode]
    refine h (c :: q) ?_
    rw [ht]
    exact List.cons_prefix_cons.mpr ⟨rfl, hq⟩
  · cases q with
    | nil => exact hmode
    | cons b q =>
        rw [ht] at hq
        obtain ⟨rfl, htail⟩ := List.cons_prefix_cons.mp hq
        rw [hread, h q htail, hcode, hmode]

end

/-! ## The main result -/

/-- **The backslashes of a mode are kept, or suppress a delimiter, exactly when every escaped
byte of that mode that begins like the delimiter begins one that does not complete the match
held at the escape.** -/
theorem keepsBackslashes_iff (sep : CString) (hsep : bsl ∉ sep.bytes) (tpl : Bytes) (code : Bool) :
    KeepsBackslashes sep tpl code ↔ Always (scanByte sep) (SuppressOk sep code) Scan.init tpl := by
  rw [always_iff]
  constructor
  · rintro h p c r rfl hesc hmode hnl hsup
    obtain ⟨q, rfl, hq, hcode, -⟩ := pending hesc
    change (scan sep (q ++ [bsl])).code = code at hmode
    rw [← hcode] at hmode
    have hsplit : q ++ [bsl] ++ c :: r = q ++ bsl :: c :: r := by simp
    rw [hsplit] at h
    have hjoin : ¬ ((scan sep q).code = false ∧ c = nl) := by
      rintro ⟨hfalse, hc⟩
      exact hnl (hmode.symm.trans hfalse) hc
    have hout : q.length ∉ posOf (chunkCells sep (q ++ bsl :: c :: r)) :=
      Suppressed.not_mem ⟨q, c, r, rfl, hq, rfl, hjoin, hsup⟩
    have hsupp := (h q (c :: r) rfl hmode (by simpa using hnl)).resolve_left hout
    exact (suppresses_iff hsep hq hsup).mp hsupp
  · rintro h p r rfl hmode hnl
    refine or_iff_not_imp_left.mpr fun hout => ?_
    have hbyte : (p ++ bsl :: r)[p.length]? = some bsl := by simp
    rcases left_out (by simp) hout with hdelim | hsup | hjoin
    · exact absurd hbyte hdelim.ne_bsl
    · obtain ⟨q, c, s, heq, hesc, hlen, hjoin, hsup⟩ := hsup
      obtain ⟨rfl, htail⟩ := List.append_inj heq hlen
      obtain rfl : r = c :: s := (List.cons.inj htail).2
      obtain ⟨hpend, hcode⟩ := scan_bsl hesc
      refine (suppresses_iff hsep hesc hsup).mpr ?_
      exact h (p ++ [bsl]) c s (by simp) hpend (hcode.trans hmode) (by simpa using hnl) hsup
    · obtain ⟨q, s, heq, -, hcode, hlen | hlen⟩ := hjoin
      · obtain ⟨rfl, htail⟩ := List.append_inj heq hlen
        obtain rfl : r = nl :: s := (List.cons.inj htail).2
        exact absurd rfl (hnl (hmode.symm.trans hcode))
      · rw [heq, hlen] at hbyte
        exact absurd hbyte (by simp)

/-- In `\@@` it suppresses the delimiter. -/
theorem backslash_suppresses :
    KeepsBackslashes atAt (ascii "\\@@") false ↔
      Always (scanByte atAt) (SuppressOk atAt false) Scan.init (ascii "\\@@") :=
  keepsBackslashes_iff atAt (by decide) (ascii "\\@@") false

/-- In `\@x` the backslash stands before a single `@`, and is lost.  In `@\@@x` it stands
before a delimiter, which the `@` before it completes all the same. -/
theorem backslash_lost :
    (¬ KeepsBackslashes atAt (ascii "\\@x") false ∧
        chunk atAt (ascii "\\@x") = ascii "tmg.print([[@x]])\n") ∧
      ¬ KeepsBackslashes atAt (ascii "@\\@@x") false ∧
        chunk atAt (ascii "@\\@@x") = ascii "\ntmg.print([[@]])\nx" := by
  refine ⟨⟨fun h => ?_, by decide⟩, fun h => ?_, by decide⟩
  · rcases h [] (ascii "@x") rfl rfl (by decide) with hkept | ⟨hpre, -⟩
    · exact absurd hkept (by decide)
    · exact absurd hpre (by decide)
  · rcases h (ascii "@") (ascii "@@x") rfl rfl (by decide) with hkept | ⟨-, hmode⟩
    · exact absurd hkept (by decide)
    · exact absurd (hmode (ascii "@@") List.prefix_rfl) (by decide)

end Tmg
