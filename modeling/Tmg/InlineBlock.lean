/-
# `Tmg.InlineBlock` — the inline block `<delim>$e<delim>`

The README prints an expression inline with `%$expr%`, and every template of
`example/config/` does.  The scanner has no case for `$`.  So the block is never
the block ` tmg.print(expr) `, and the `$` itself is handed to Lua:

    chunk (pre <delim>$e<delim> post)  ≠  chunk (pre <delim> tmg.print(e) <delim> post)

for every template around the block, every delimiter and every `e` without a
backslash (`inline_ne_print`).  The two chunks agree up to the opening delimiter
and differ in the very next byte: what the first byte after an opening delimiter
gives is the byte itself, or the newline of a delimiter that begins with it
(`first_byte`).
-/
import Tmg.Steps

namespace Tmg

/-- `'$'` -/
def dollar : Byte := 36

/-- `' '` -/
def space : Byte := 32

/-- The delimiter after `pre` is recognised and opens a code block: the scanner is
in text mode before its last byte and in code mode after it. -/
def OpensBlock (sep : CString) (pre : Bytes) : Prop :=
  (scan sep (pre ++ sep.bytes.dropLast)).code = false ∧ (scan sep (pre ++ sep.bytes)).code = true

instance (sep : CString) (pre : Bytes) : Decidable (OpensBlock sep pre) :=
  inferInstanceAs (Decidable (_ ∧ _))

/-- `<delim>$e<delim>` -/
def inlineBlock (sep : CString) (e : Bytes) : Bytes :=
  sep.bytes ++ (dollar :: (e ++ sep.bytes))

/-- `<delim> tmg.print(e) <delim>` -/
def printBlock (sep : CString) (e : Bytes) : Bytes :=
  sep.bytes ++ (space :: (ascii "tmg.print(" ++ (e ++ (ascii ") " ++ sep.bytes))))

namespace Core

variable {sep : CString}

/-- A partial match that begins with `a` is passed on, or becomes the delimiter,
before the bytes that could complete it run out: the next byte of the chunk is `a`,
or the newline of a delimiter that begins with `a`. -/
theorem first_of_match {a : Byte} :
    ∀ (w : Bytes) (k : Core), k.code = true → k.escapeNext = false → bsl ∉ w →
      k.matchBuf <+: sep.bytes → k.matchBuf.head? = some a →
      sep.bytes.length ≤ k.matchBuf.length + w.length → k.matchBuf ≠ sep.bytes →
      k.builder ++ [a] <+: (w.foldl (step sep) k).builder ∨
        (sep.bytes.head? = some a ∧ k.builder ++ [nl] <+: (w.foldl (step sep) k).builder)
  | [], k, _, _, _, hpre, _, hlen, hne => by
      exact absurd (hpre.eq_of_length_le (by simpa using hlen)) hne
  | c :: w, k, hcode, hesc, hw, hpre, hhead, hlen, hne => by
      have hc : c ≠ bsl := fun h => hw (h ▸ List.mem_cons_self)
      have hw' : bsl ∉ w := fun h => hw (List.mem_cons_of_mem _ h)
      obtain ⟨m, hm⟩ : ∃ m, k.matchBuf = a :: m := List.head?_eq_some_iff.mp hhead
      have hsep : sep.bytes.head? = some a := by
        obtain ⟨r, hr⟩ := hpre
        rw [← hr, hm]
        rfl
      rw [List.foldl_cons]
      generalize hk : k.step sep c = k'
      have hcase := step_cases sep k c
      rw [hk] at hcase
      cases hcase with
      | escaped h => rw [hesc] at h; exact absurd h (by decide)
      | waiting _ h => exact absurd h hc
      | toggled _ _ _ =>
          exact Or.inr ⟨hsep, (builder_prefix_toggle k).trans (builder_prefix_run sep w _)⟩
      | matched _ _ hall hpre' =>
          refine first_of_match w { k with matchBuf := k.matchBuf ++ [c] } hcode hesc hw' hpre' ?_ ?_
            hall
          · simp [hm]
          · simp at hlen ⊢
            omega
      | failed _ _ _ =>
          refine Or.inl (List.IsPrefix.trans ?_ (builder_prefix_run sep w _))
          simp [emit, hcode, put, hm]

/-- The first byte of a code block is the next byte of the chunk, unless the
delimiter begins with it: then it may be the newline of the next delimiter. -/
theorem first_byte {a : Byte} {w : Bytes} {k : Core} (hcode : k.code = true)
    (hesc : k.escapeNext = false) (hm : k.matchBuf = []) (ha : a ≠ bsl) (hw : bsl ∉ w)
    (hlen : sep.bytes.length ≤ w.length) :
    k.builder ++ [a] <+: ((a :: w).foldl (step sep) k).builder ∨
      (sep.bytes.head? = some a ∧ k.builder ++ [nl] <+: ((a :: w).foldl (step sep) k).builder) := by
  rw [List.foldl_cons]
  generalize hk : k.step sep a = k'
  have hcase := step_cases sep k a
  rw [hk] at hcase
  cases hcase with
  | escaped h => rw [hesc] at h; exact absurd h (by decide)
  | waiting _ h => exact absurd h ha
  | toggled _ _ hall =>
      refine Or.inr ⟨?_, (builder_prefix_toggle k).trans (builder_prefix_run sep w _)⟩
      rw [← hall, hm]
      rfl
  | matched _ _ hall hpre =>
      refine first_of_match w { k with matchBuf := k.matchBuf ++ [a] } hcode hesc hw hpre ?_ ?_ hall
      · simp [hm]
      · simp
        omega
  | failed _ _ _ =>
      refine Or.inl (List.IsPrefix.trans ?_ (builder_prefix_run sep w _))
      simp [emit, hcode, put, hm]

end Core

/-- An opening delimiter leaves the scanner in code mode, with no match and no
escape pending, and holds no backslash. -/
theorem OpensBlock.state {sep : CString} {pre : Bytes} (h : OpensBlock sep pre) :
    (scan sep (pre ++ sep.bytes)).core.code = true ∧
      (scan sep (pre ++ sep.bytes)).core.escapeNext = false ∧
      (scan sep (pre ++ sep.bytes)).core.matchBuf = [] ∧ bsl ∉ sep.bytes := by
  obtain ⟨hbefore, hafter⟩ := h
  have hne : sep.bytes ≠ [] := by
    intro h0
    rw [h0] at hbefore hafter
    simp only [List.dropLast_nil, List.append_nil] at hbefore hafter
    exact absurd (hbefore.symm.trans hafter) (by decide)
  generalize hk : (scan sep (pre ++ sep.bytes.dropLast)).core = k
  have hlast : (scan sep (pre ++ sep.bytes)).core = k.step sep (sep.bytes.getLast hne) := by
    have hsplit : pre ++ sep.bytes = (pre ++ sep.bytes.dropLast) ++ [sep.bytes.getLast hne] := by
      rw [List.append_assoc, List.dropLast_append_getLast hne]
    rw [hsplit, core_scan, List.foldl_append, ← core_scan, hk]
    rfl
  have hbefore' : k.code = false := by rw [← hk]; exact hbefore
  have hafter' : (k.step sep (sep.bytes.getLast hne)).code = true := by
    rw [← hlast]; exact hafter
  obtain ⟨hesc, hlastne, hall, htog⟩ := Core.toggled_of_code_ne (by rw [hbefore', hafter']; decide)
  have hinv : Core.Inv sep k := by
    rw [← hk]
    exact scan_inv sep _
  refine ⟨hafter, ?_, ?_, ?_⟩
  · rw [hlast, htog]
    exact hesc
  · rw [hlast, htog]
    rfl
  · rw [← hall]
    simp [hinv.noEscape, Ne.symm hlastne]

/-- What the scanner does with the rest of a template after an opening delimiter. -/
theorem OpensBlock.first {sep : CString} {pre : Bytes} (h : OpensBlock sep pre) {a : Byte}
    {w : Bytes} (ha : a ≠ bsl) (hw : bsl ∉ w) (post : Bytes) :
    ∃ b, (scan sep (pre ++ sep.bytes)).builder ++ [b]
        <+: chunk sep (pre ++ (sep.bytes ++ a :: (w ++ sep.bytes)) ++ post) ∧
      (b = a ∨ b = nl ∧ sep.bytes.head? = some a) := by
  obtain ⟨hcode, hesc, hm, hsep⟩ := h.state
  have hrun : (scan sep (pre ++ (sep.bytes ++ a :: (w ++ sep.bytes)) ++ post)).core
      = post.foldl (Core.step sep) ((a :: (w ++ sep.bytes)).foldl (Core.step sep)
          (scan sep (pre ++ sep.bytes)).core) := by
    simp only [core_scan, List.foldl_append]
  have hchunk : ∀ x : Bytes,
      x <+: ((a :: (w ++ sep.bytes)).foldl (Core.step sep) (scan sep (pre ++ sep.bytes)).core).builder →
        x <+: chunk sep (pre ++ (sep.bytes ++ a :: (w ++ sep.bytes)) ++ post) := by
    intro x hx
    have hpost := Core.builder_prefix_run sep post
      ((a :: (w ++ sep.bytes)).foldl (Core.step sep) (scan sep (pre ++ sep.bytes)).core)
    have hend := Core.builder_prefix_finish
      (scan sep (pre ++ (sep.bytes ++ a :: (w ++ sep.bytes)) ++ post)).core
    rw [← hrun] at hpost
    rw [← core_finish] at hend
    exact (hx.trans hpost).trans hend
  have hw' : bsl ∉ w ++ sep.bytes := by simp [hw, hsep]
  have hlen : sep.bytes.length ≤ (w ++ sep.bytes).length := by simp
  rcases Core.first_byte hcode hesc hm ha hw' hlen with hfirst | ⟨hhead, hfirst⟩
  · exact ⟨a, hchunk _ hfirst, Or.inl rfl⟩
  · exact ⟨nl, hchunk _ hfirst, Or.inr ⟨rfl, hhead⟩⟩

/-- **An inline block is never the block that prints its expression**, whatever
stands around it; and unless the delimiter itself begins with `$`, the `$` is the
next byte of the chunk. -/
theorem inline_ne_print {sep : CString} {pre : Bytes} (h : OpensBlock sep pre) {e : Bytes}
    (he : bsl ∉ e) (post : Bytes) :
    chunk sep (pre ++ inlineBlock sep e ++ post) ≠ chunk sep (pre ++ printBlock sep e ++ post) ∧
      (sep.bytes.head? ≠ some dollar →
        (scan sep (pre ++ sep.bytes)).builder ++ [dollar]
          <+: chunk sep (pre ++ inlineBlock sep e ++ post)) := by
  obtain ⟨b, hb, hbcase⟩ := h.first (a := dollar) (w := e) (by decide) he post
  refine ⟨?_, ?_⟩
  · intro heq
    have hwrap : bsl ∉ ascii "tmg.print(" ++ (e ++ ascii ") ") := by
      have h1 : bsl ∉ ascii "tmg.print(" := by decide
      have h2 : bsl ∉ ascii ") " := by decide
      simp [he, h1, h2]
    obtain ⟨b', hb', hbcase'⟩ := h.first (a := space) (by decide) hwrap post
    simp only [List.append_assoc] at hb' hb heq
    rw [inlineBlock, printBlock] at heq
    simp only [List.append_assoc, List.cons_append] at hb' hb heq
    rw [← heq] at hb'
    -- both bytes are the next byte of one chunk
    have hsame : b = b' := by
      have hlen := List.prefix_of_prefix_length_le hb hb' (by simp)
      simpa using hlen
    subst hsame
    rcases hbcase with rfl | ⟨rfl, hdollar⟩ <;> rcases hbcase' with hs | ⟨hs, hspace⟩
    · exact absurd hs (by decide)
    · exact absurd hs (by decide)
    · exact absurd hs (by decide)
    · rw [hdollar] at hspace
      exact absurd hspace (by decide)
  · intro hsep
    rcases hbcase with rfl | ⟨-, hdollar⟩
    · exact hb
    · exact absurd hdollar hsep

/-- `%$x%` after the text `a`. -/
theorem inline_ne_print_percent :
    chunk (CString.single 37 (by decide)) (ascii "a" ++ inlineBlock (CString.single 37 (by decide))
        (ascii "x") ++ []) ≠
      chunk (CString.single 37 (by decide)) (ascii "a" ++ printBlock (CString.single 37 (by decide))
        (ascii "x") ++ []) :=
  have hopen : OpensBlock (CString.single 37 (by decide)) (ascii "a") := by decide
  have he : bsl ∉ ascii "x" := by decide
  (inline_ne_print hopen he []).1

/-- `%$1%` gives the chunk `$1` between two newlines, `% tmg.print(1) %` a call. -/
theorem inline_ne_print_one :
    OpensBlock (CString.single 37 (by decide)) [] ∧
      chunk (CString.single 37 (by decide)) (inlineBlock (CString.single 37 (by decide)) (ascii "1"))
        = ascii "\n$1\n" ∧
      chunk (CString.single 37 (by decide)) (printBlock (CString.single 37 (by decide)) (ascii "1"))
        = ascii "\n tmg.print(1) \n" ∧
      ascii "\n$1\n" ≠ ascii "\n tmg.print(1) \n" := by decide

end Tmg
