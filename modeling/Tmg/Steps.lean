/-
# `Tmg.Steps` — what one byte can do to the scanner

`Core.step_cases` lists the five things that can happen to a byte of the
template; everything below, and everything the later modules prove about runs,
is read off it.

    escaped    the byte after a backslash is passed on
    waiting    a backslash waits for the byte after it
    toggled    the byte completes the delimiter
    matched    the byte continues a partial match
    failed     the partial match and the byte are passed on

`Core.Inv` is what holds between any two bytes: the bytes held in `match_buf` are
a proper prefix of the delimiter, without a backslash in it, and the text buffer
is empty while in code.
-/
import Tmg.Scanner
import Tmg.Lib.Run

namespace Tmg

open Lib

namespace Core

variable {sep : CString}

/-- The five things a byte can do. -/
inductive StepTo (sep : CString) (k : Core) (c : Byte) : Core → Prop
  | escaped : k.escapeNext = true →
      StepTo sep k c ({ k with escapeNext := false }.emit (escaped sep k.code c))
  | waiting : k.escapeNext = false → c = bsl → StepTo sep k c { k with escapeNext := true }
  | toggled : k.escapeNext = false → c ≠ bsl → k.matchBuf ++ [c] = sep.bytes →
      StepTo sep k c k.toggle
  | matched : k.escapeNext = false → c ≠ bsl → k.matchBuf ++ [c] ≠ sep.bytes →
      k.matchBuf ++ [c] <+: sep.bytes →
      StepTo sep k c { k with matchBuf := k.matchBuf ++ [c] }
  | failed : k.escapeNext = false → c ≠ bsl → ¬ k.matchBuf ++ [c] <+: sep.bytes →
      StepTo sep k c ({ k with matchBuf := [] }.emit (k.matchBuf ++ [c]))

theorem step_cases (sep : CString) (k : Core) (c : Byte) : StepTo sep k c (k.step sep c) := by
  unfold step
  cases hesc : k.escapeNext
  · by_cases hb : c = bsl
    · simpa [hb] using StepTo.waiting hesc hb
    · by_cases hall : k.matchBuf ++ [c] = sep.bytes
      · simpa [hb, hall] using StepTo.toggled hesc hb hall
      · by_cases hpre : k.matchBuf ++ [c] <+: sep.bytes
        · simpa [hb, hall, hpre, hesc] using StepTo.matched hesc hb hall hpre
        · simpa [hb, hall, hpre, hesc] using StepTo.failed hesc hb hpre
  · simpa using StepTo.escaped hesc

/-! ## The invariant -/

/-- What holds between any two bytes. -/
structure Inv (sep : CString) (k : Core) : Prop where
  isPrefix : k.matchBuf <+: sep.bytes
  proper : sep.bytes ≠ [] → k.matchBuf ≠ sep.bytes
  noEscape : bsl ∉ k.matchBuf
  noText : k.code = true → k.buffer = []

theorem inv_init (sep : CString) : Inv sep Scan.init.core :=
  ⟨List.nil_prefix, fun h h' => h h'.symm, by simp [Scan.init, Scan.core], fun _ => rfl⟩

/-- Passing bytes on touches neither the match nor, in code, the text buffer. -/
theorem Inv.emit {k : Core} (h : Inv sep k) (bs : Bytes) : Inv sep (k.emit bs) where
  isPrefix := by simpa using h.isPrefix
  proper := by simpa using h.proper
  noEscape := by simpa using h.noEscape
  noText := by
    intro hcode
    rw [emit_code] at hcode
    simp [Core.emit, hcode, put, h.noText hcode]

theorem Inv.cleared {k : Core} (h : Inv sep k) : Inv sep { k with matchBuf := [] } :=
  ⟨List.nil_prefix, fun hs hs' => hs hs'.symm, by simp, h.noText⟩

theorem Inv.step {k : Core} (h : Inv sep k) (c : Byte) : Inv sep (Core.step sep k c) := by
  generalize hk : k.step sep c = k'
  have hcase := step_cases sep k c
  rw [hk] at hcase
  cases hcase with
  | escaped _ => exact Inv.emit (k := { k with escapeNext := false }) ⟨h.1, h.2, h.3, h.4⟩ _
  | waiting _ _ => exact ⟨h.1, h.2, h.3, h.4⟩
  | toggled _ _ _ => exact ⟨List.nil_prefix, fun hs hs' => hs hs'.symm, by simp [toggle, flush],
      fun _ => rfl⟩
  | matched _ hb hne hpre =>
      exact ⟨hpre, fun _ => hne, by simp [h.noEscape, Ne.symm hb], h.noText⟩
  | failed _ _ _ => exact h.cleared.emit _

theorem Inv.run {k : Core} (h : Inv sep k) (tpl : Bytes) : Inv sep (tpl.foldl (Core.step sep) k) :=
  foldl_invariant (fun _ c hk => hk.step c) h tpl

/-! ## The chunk only grows -/

theorem builder_prefix_emit (k : Core) (bs : Bytes) : k.builder <+: (k.emit bs).builder := by
  unfold emit
  split
  · exact List.prefix_append _ _
  · exact List.prefix_rfl

theorem builder_prefix_toggle (k : Core) : k.builder ++ [nl] <+: k.toggle.builder :=
  List.prefix_append _ _

theorem builder_prefix_step (sep : CString) (k : Core) (c : Byte) :
    k.builder <+: (k.step sep c).builder := by
  generalize hk : k.step sep c = k'
  have hcase := step_cases sep k c
  rw [hk] at hcase
  cases hcase with
  | escaped _ => exact builder_prefix_emit { k with escapeNext := false } _
  | waiting _ _ => exact List.prefix_rfl
  | toggled _ _ _ => exact (List.prefix_append _ _).trans (builder_prefix_toggle k)
  | matched _ _ _ _ => exact List.prefix_rfl
  | failed _ _ _ => exact builder_prefix_emit { k with matchBuf := [] } _

theorem builder_prefix_run (sep : CString) (tpl : Bytes) (k : Core) :
    k.builder <+: (tpl.foldl (step sep) k).builder := by
  induction tpl generalizing k with
  | nil => exact List.prefix_rfl
  | cons c tpl ih => exact (builder_prefix_step sep k c).trans (ih (k.step sep c))

theorem builder_prefix_finish (k : Core) : k.builder <+: k.finish.builder := by
  have h1 := builder_prefix_emit k (if k.escapeNext then [bsl] else [])
  have h2 := builder_prefix_emit (k.emit (if k.escapeNext then [bsl] else []))
    (k.emit (if k.escapeNext then [bsl] else [])).matchBuf
  exact (h1.trans h2).trans (List.prefix_append _ _)

/-! ## Toggles -/

/-- The mode changes only where a byte completes the delimiter. -/
theorem toggled_of_code_ne {k : Core} {c : Byte} (h : (k.step sep c).code ≠ k.code) :
    k.escapeNext = false ∧ c ≠ bsl ∧ k.matchBuf ++ [c] = sep.bytes ∧ k.step sep c = k.toggle := by
  generalize hk : k.step sep c = k' at h
  have hcase := step_cases sep k c
  rw [hk] at hcase
  cases hcase with
  | escaped _ => exact absurd (emit_code _ _) h
  | waiting _ _ => exact absurd rfl h
  | toggled hesc hb hall => exact ⟨hesc, hb, hall, rfl⟩
  | matched _ _ _ _ => exact absurd rfl h
  | failed _ _ _ => exact absurd (emit_code _ _) h

/-! ## Pending backslashes -/

/-- A backslash is pending only right after a byte that was read as one. -/
theorem waiting_of_escapeNext {k : Core} {c : Byte} (h : (k.step sep c).escapeNext = true) :
    k.escapeNext = false ∧ c = bsl ∧ k.step sep c = { k with escapeNext := true } := by
  generalize hk : k.step sep c = k' at h
  have hcase := step_cases sep k c
  rw [hk] at hcase
  cases hcase with
  | escaped _ =>
      rw [emit_escapeNext] at h
      exact absurd h Bool.false_ne_true
  | waiting hesc hb => exact ⟨hesc, hb, rfl⟩
  | toggled hesc _ _ => exact absurd (hesc.symm.trans h) (by decide)
  | matched hesc _ _ _ => exact absurd (hesc.symm.trans h) (by decide)
  | failed hesc _ _ =>
      rw [emit_escapeNext] at h
      exact absurd (hesc.symm.trans h) (by decide)

end Core

theorem core_scan_concat (sep : CString) (p : Bytes) (c : Byte) :
    (scan sep (p ++ [c])).core = (scan sep p).core.step sep c := by
  simp [core_scan, List.foldl_append]

theorem scan_inv (sep : CString) (p : Bytes) : Core.Inv sep (scan sep p).core := by
  rw [core_scan]
  exact (Core.inv_init sep).run p

/-- A pending backslash is the last byte read; it changed nothing but the flag. -/
theorem pending {sep : CString} {p : Bytes} (h : (scan sep p).escapeNext = true) :
    ∃ q, p = q ++ [bsl] ∧ (scan sep q).escapeNext = false ∧
      (scan sep q).code = (scan sep p).code ∧ (scan sep q).matchBuf = (scan sep p).matchBuf := by
  rcases List.eq_nil_or_concat' p with rfl | ⟨q, c, rfl⟩
  · exact absurd h (by simp [scan, Scan.init])
  · have hcore := core_scan_concat sep q c
    have hesc : ((scan sep q).core.step sep c).escapeNext = true := by rw [← hcore]; exact h
    obtain ⟨hfalse, rfl, hstep⟩ := Core.waiting_of_escapeNext hesc
    rw [hstep] at hcore
    exact ⟨q, rfl, hfalse, (congrArg Core.code hcore).symm, (congrArg Core.matchBuf hcore).symm⟩

end Tmg
