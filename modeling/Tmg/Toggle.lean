/-
# `Tmg.Toggle` — where the scanner changes its mode

A delimiter should be recognised wherever it stands: the mode should change at the
leftmost non-overlapping occurrences of the delimiter in the template.  The scanner
keeps the bytes that have matched so far in `match_buf` and passes the whole of it on
at a mismatch, the mismatching byte included.  An occurrence that begins in these
bytes is lost:

    delimiter ab, template aab     no toggle

`toggles_eq_iff` says that nothing else is: on templates without a backslash the
scanner is the matcher `resetEnds` (`toggles_eq_resetEnds`), and that one finds the
occurrences exactly when no mismatch forgets the beginning of one.  Delimiters that
repeat one byte, as `%` and `@@` do, never forget anything (`forgetsNothing_replicate`).
-/
import Tmg.Steps
import Tmg.Lib.Search

namespace Tmg

open Lib

/-- The positions of the bytes at which the mode changes, from position `i` on. -/
def togglesFrom (sep : CString) : Nat → Scan → Bytes → List Nat
  | _, _, [] => []
  | i, st, c :: s =>
      let st' := scanByte sep st c
      if st'.code = st.code then togglesFrom sep (i + 1) st' s
      else i :: togglesFrom sep (i + 1) st' s

/-- The positions of the template's bytes at which the mode changes. -/
def toggles (sep : CString) (tpl : Bytes) : List Nat := togglesFrom sep 0 Scan.init tpl

/-! ## The scanner is the matcher -/

/-- Outside an escape, what a byte other than a backslash does to the partial match,
the flag and the mode. -/
theorem Core.matchStep {sep : CString} {k : Core} {c : Byte} (hesc : k.escapeNext = false)
    (hc : c ≠ bsl) :
    (k.step sep c).matchBuf = resetStep sep.bytes k.matchBuf c ∧
      (k.step sep c).escapeNext = false ∧
      ((k.step sep c).code = k.code ↔ k.matchBuf ++ [c] ≠ sep.bytes) := by
  generalize hk : k.step sep c = k'
  have hcase := step_cases sep k c
  rw [hk] at hcase
  cases hcase with
  | escaped h => rw [hesc] at h; exact absurd h (by decide)
  | waiting _ h => exact absurd h hc
  | toggled _ _ hall =>
      have hreset : resetStep sep.bytes k.matchBuf c = [] := if_pos hall
      refine ⟨hreset.symm, hesc, iff_of_false ?_ (fun h => h hall)⟩
      exact fun h => absurd h (by simp [toggle, flush, put])
  | matched _ _ hne hpre =>
      have hgrow : resetStep sep.bytes k.matchBuf c = k.matchBuf ++ [c] := by
        rw [resetStep, if_neg hne, if_pos hpre]
      exact ⟨hgrow.symm, hesc, iff_of_true rfl hne⟩
  | failed _ _ hpre =>
      have hne : k.matchBuf ++ [c] ≠ sep.bytes := fun h => hpre (h ▸ List.prefix_rfl)
      have hreset : resetStep sep.bytes k.matchBuf c = [] := by
        rw [resetStep, if_neg hne, if_neg hpre]
      rw [emit_matchBuf, emit_escapeNext, emit_code]
      exact ⟨hreset.symm, hesc, iff_of_true rfl hne⟩

/-- The same of the scanner. -/
theorem matchStep {sep : CString} {st : Scan} {c : Byte} (hesc : st.escapeNext = false)
    (hc : c ≠ bsl) :
    (scanByte sep st c).matchBuf = resetStep sep.bytes st.matchBuf c ∧
      (scanByte sep st c).escapeNext = false ∧
      ((scanByte sep st c).code = st.code ↔ st.matchBuf ++ [c] ≠ sep.bytes) := by
  have h := @Core.matchStep sep st.core c hesc hc
  rw [← core_scanByte] at h
  exact h

/-- On bytes other than the backslash the scanner toggles where the matcher completes
the delimiter. -/
theorem togglesFrom_eq (sep : CString) :
    ∀ (s : Bytes) (i : Nat) (st : Scan), bsl ∉ s → st.escapeNext = false →
      togglesFrom sep i st s = resetEndsFrom sep.bytes st.matchBuf i s
  | [], _, _, _, _ => rfl
  | c :: s, i, st, hs, hesc => by
      have hc : c ≠ bsl := fun h => hs (h ▸ List.mem_cons_self)
      obtain ⟨hmatch, hflag, hmode⟩ := matchStep hesc hc
      have ih := togglesFrom_eq sep s (i + 1) (scanByte sep st c)
        (fun h => hs (List.mem_cons_of_mem _ h)) hflag
      rw [togglesFrom, resetEndsFrom, ← hmatch, ← ih]
      by_cases hall : st.matchBuf ++ [c] = sep.bytes
      · rw [if_pos hall, if_neg (fun h => hmode.mp h hall)]
      · rw [if_neg hall, if_pos (hmode.mpr hall)]

theorem toggles_eq_resetEnds {sep : CString} {tpl : Bytes} (htpl : bsl ∉ tpl) :
    toggles sep tpl = resetEnds sep.bytes tpl :=
  togglesFrom_eq sep tpl 0 Scan.init htpl rfl

/-- A condition on the matcher's steps is one on the scanner's. -/
theorem always_matcher (sep : CString) {P : Bytes → Byte → Bytes → Prop} :
    ∀ (s : Bytes) (st : Scan), bsl ∉ s → st.escapeNext = false →
      (Always (scanByte sep) (fun st c rest => P st.matchBuf c rest) st s ↔
        Always (resetStep sep.bytes) P st.matchBuf s)
  | [], _, _, _ => Iff.rfl
  | c :: s, st, hs, hesc => by
      have hc : c ≠ bsl := fun h => hs (h ▸ List.mem_cons_self)
      obtain ⟨hmatch, hflag, -⟩ := matchStep hesc hc
      have ih := always_matcher (P := P) sep s (scanByte sep st c)
        (fun h => hs (List.mem_cons_of_mem _ h)) hflag
      rw [Always, Always, ih, hmatch]

/-! ## The occurrences of the delimiter -/

/-- No mismatch passes on the beginning of a delimiter. -/
def NothingForgotten (sep : CString) (tpl : Bytes) : Prop :=
  Always (scanByte sep) (fun st c rest => ForgetsNothing sep.bytes st.matchBuf c rest)
    Scan.init tpl

instance (sep : CString) (tpl : Bytes) : Decidable (NothingForgotten sep tpl) :=
  inferInstanceAs (Decidable (Always _ _ _ _))

/-- **The mode changes at the last bytes of the leftmost non-overlapping occurrences
of the delimiter exactly when no mismatch passes on the beginning of one.** -/
theorem toggles_eq_iff {sep : CString} (hsep : sep.bytes ≠ []) {tpl : Bytes} (htpl : bsl ∉ tpl) :
    toggles sep tpl = (occurrences sep.bytes tpl).map (· + (sep.strlen - 1)) ↔
      NothingForgotten sep tpl := by
  rw [toggles_eq_resetEnds htpl, CString.strlen, resetEnds_eq_iff hsep]
  exact (always_matcher sep tpl Scan.init htpl rfl).symm

/-- The delimiter `ab`. -/
def ab : CString := ⟨ascii "ab", by decide⟩

/-- In `xabyab` both delimiters are recognised. -/
theorem toggles_eq_separate :
    toggles ab (ascii "xabyab")
      = (occurrences ab.bytes (ascii "xabyab")).map (· + (ab.strlen - 1)) :=
  have hsep : ab.bytes ≠ [] := by decide
  have htpl : bsl ∉ ascii "xabyab" := by decide
  (toggles_eq_iff hsep htpl).mpr (by decide)

/-- In `aab` the delimiter at position 1 is not. -/
theorem toggles_ne_overlapping :
    toggles ab (ascii "aab") = [] ∧
      (occurrences ab.bytes (ascii "aab")).map (· + (ab.strlen - 1)) = [2] ∧
      ([] : List Nat) ≠ [2] := by decide

/-! ## Delimiters of one repeated byte -/

/-- Where the pattern repeats one symbol, a mismatch rules out every occurrence that
would have to contain it. -/
theorem forgetsNothing_replicate {a : Byte} {n : Nat} {m : Bytes} {c : Byte} {rest : Bytes}
    (hm : m <+: List.replicate n a) (hne : m ≠ List.replicate n a) :
    ForgetsNothing (List.replicate n a) m c rest := by
  intro hmis j hj hocc
  obtain ⟨hlen, hrun⟩ := List.prefix_replicate_iff.mp hm
  have hlt : m.length < n := by
    refine lt_of_le_of_ne hlen fun h => hne ?_
    rw [hrun, h]
  -- the mismatching byte stands at offset `m.length - j` of the occurrence
  have hbyte : ((m ++ c :: rest).drop j)[m.length - j]? = some c := by
    have hat : j + (m.length - j) = m.length := by omega
    rw [List.getElem?_drop, hat]
    simp
  have hc : c = a := by
    obtain ⟨t, ht⟩ := hocc
    rw [← ht, List.getElem?_append_left (by simp; omega), List.getElem?_replicate,
      if_pos (by omega)] at hbyte
    exact (Option.some.inj hbyte).symm
  refine hmis (List.prefix_replicate_iff.mpr ⟨?_, ?_⟩)
  · rw [List.length_append]
    exact hlt
  · rw [hc]
    nth_rewrite 1 [hrun]
    simp [List.replicate_succ']

/-- **Delimiters that repeat one byte are recognised wherever they stand.** -/
theorem nothingForgotten_replicate {sep : CString} {a : Byte} {n : Nat} (hn : 0 < n)
    (hsep : sep.bytes = List.replicate n a) (tpl : Bytes) : NothingForgotten sep tpl := by
  have hne : sep.bytes ≠ [] := by
    rw [hsep]
    simpa using hn.ne'
  refine always_iff.mpr ?_
  intro p c r _
  have hinv := scan_inv sep p
  rw [hsep]
  exact forgetsNothing_replicate (hsep ▸ hinv.isPrefix) (hsep ▸ hinv.proper hne)

end Tmg
