/-
# `Tmg.Escaping` — the texts that can be written

In a text a backslash takes the byte after it out of the game, and it is dropped where that
byte is the delimiter or a newline.  Nothing stands for a backslash itself, so a backslash
right before the delimiter cannot be written:

    template    \%      \\%            \\\%
    text        %       \\ and code    \\%

Backslashes are read in pairs, and a text is one that can be written exactly when no run of
an odd number of them stands before the delimiter or before a newline
(`exists_template_iff`).  The chunk of such a template is the one statement that prints the
text (`chunk_of_writes`).

`spellText` writes such a text and `Spellable` says, along the text, which these are.
-/
import Mathlib.Algebra.Group.Nat.Even
import Tmg.Reference
import Tmg.Toggle

namespace Tmg

/-! ## The text of a template -/

/-- What `finish` does before the last `flush_text_buffer`. -/
def atEnd (st : Scan) : Scan :=
  let st :=
    if st.escapeNext then (if st.code then st.pushBuilder bsl else st.pushBuffer bsl) else st
  if st.matchBuf.length > 0 then { st.matchBuf.foldl pushRest st with matchBuf := [] } else st

theorem finish_eq (st : Scan) : finish st = flushTextBuffer (atEnd st) := rfl

/-- The text that is printed last: of a template without code, its text. -/
def textOf (sep : CString) (tpl : Bytes) : Bytes := (atEnd (scan sep tpl)).buffer

/-- The template is text throughout, and this text. -/
def Writes (sep : CString) (tpl t : Bytes) : Prop := toggles sep tpl = [] ∧ textOf sep tpl = t

/-- Runs of backslashes before the delimiter or a newline are even. -/
def RunsEven (d : Byte) (t : Bytes) : Prop :=
  ∀ p k x r, t = p ++ List.replicate k bsl ++ x :: r → p.getLast? ≠ some bsl →
    x = d ∨ x = nl → Even k

/-! ## The scanner on text -/

section

variable {d : Byte}

theorem cut_escape (x : Byte) (s : Bytes) : cut d (bsl :: x :: s) = prepend [bsl, x] (cut d s) := by
  simp [cut]

theorem cut_cons {c : Byte} (hb : c ≠ bsl) (hc : c ≠ d) (s : Bytes) :
    cut d (c :: s) = prepend [c] (cut d s) := by
  cases s with
  | nil => simp [cut, hc, prepend]
  | cons x s => simp [cut, hb, hc]

theorem cut_delim (hd : d ≠ bsl) (s : Bytes) : cut d (d :: s) = [] :: cut d s := by
  cases s with
  | nil => simp [cut]
  | cons x s => simp [cut, hd]

theorem decode_cons {c : Byte} (hb : c ≠ bsl) (s : Bytes) :
    decode d false (c :: s) = c :: decode d false s := by
  cases s with
  | nil => simp [decode]
  | cons x s => simp [decode, hb]

theorem decode_escape (x : Byte) (s : Bytes) :
    decode d false (bsl :: x :: s) = decodeEscape d false x ++ decode d false s := by
  simp [decode]

theorem prepend_eq_singleton {bs s : Bytes} {segs : List Bytes} (hsegs : segs ≠ []) :
    prepend bs segs = [bs ++ s] ↔ segs = [s] := by
  obtain ⟨seg, segs, rfl⟩ := List.exists_cons_of_ne_nil hsegs
  simp [prepend]

/-- Between two bytes, in text. -/
structure InText (k : Core) : Prop where
  noMatch : k.matchBuf = []
  text : k.code = false
  noEscape : k.escapeNext = false

theorem InText.between {k : Core} (h : InText k) : Between k :=
  ⟨h.noMatch, fun hcode => absurd (h.text.symm.trans hcode) (by decide)⟩

theorem InText.emit {k : Core} (h : InText k) (bs : Bytes) : InText (k.emit bs) := by
  refine ⟨?_, ?_, ?_⟩
  · rw [Core.emit_matchBuf, h.noMatch]
  · rw [Core.emit_code, h.text]
  · rw [Core.emit_escapeNext, h.noEscape]

theorem InText.emit_buffer {k : Core} (h : InText k) (bs : Bytes) :
    (k.emit bs).buffer = k.buffer ++ bs := by
  simp [Core.emit, h.text, Core.hold]

theorem togglesFrom_cons_eq_nil {sep : CString} {i : Nat} {st : Scan} {c : Byte} {s : Bytes} :
    togglesFrom sep i st (c :: s) = [] ↔
      (st.core.step sep c).code = st.core.code ∧ togglesFrom sep (i + 1) (scanByte sep st c) s = [] := by
  rw [← core_scanByte, togglesFrom]
  show _ ↔ (scanByte sep st c).code = st.code ∧ _
  by_cases h : (scanByte sep st c).code = st.code <;> simp [h]

/-- So far text only: nothing has been written to the chunk. -/
structure OnlyText (k : Core) : Prop where
  builder : k.builder = []
  text : k.code = false

theorem OnlyText.emit {k : Core} (h : OnlyText k) (bs : Bytes) : OnlyText (k.emit bs) := by
  refine ⟨?_, by rw [Core.emit_code, h.text]⟩
  simp [Core.emit, h.text, Core.hold, h.builder]

/-- A byte that is not the end of a delimiter goes to the text. -/
theorem OnlyText.step {sep : CString} {k : Core} {c : Byte} (h : OnlyText k)
    (hstay : (k.step sep c).code = k.code) : OnlyText (k.step sep c) := by
  generalize hk : k.step sep c = k' at hstay
  have hcase := Core.step_cases sep k c
  rw [hk] at hcase
  cases hcase with
  | escaped _ => exact OnlyText.emit (k := { k with escapeNext := false }) ⟨h.builder, h.text⟩ _
  | waiting _ _ => exact ⟨h.builder, h.text⟩
  | toggled _ _ _ => exact absurd hstay (by simp [Core.toggle, Core.flush, Core.put])
  | matched _ _ _ _ => exact ⟨h.builder, h.text⟩
  | failed _ _ _ => exact OnlyText.emit (k := { k with matchBuf := [] }) ⟨h.builder, h.text⟩ _

theorem onlyText_run {sep : CString} : ∀ {s : Bytes} {i : Nat} {st : Scan}, OnlyText st.core →
    togglesFrom sep i st s = [] → OnlyText (s.foldl (scanByte sep) st).core
  | [], _, _, h, _ => h
  | c :: s, i, st, h, hnil => by
      obtain ⟨hstay, hrest⟩ := togglesFrom_cons_eq_nil.mp hnil
      have hstep : OnlyText (scanByte sep st c).core := by
        rw [core_scanByte]
        exact h.step hstay
      rw [List.foldl_cons]
      exact onlyText_run hstep hrest

theorem onlyText_atEnd {st : Scan} (h : OnlyText st.core) : OnlyText (atEnd st).core := by
  have hpush : ∀ (st : Scan) (c : Byte), OnlyText st.core → OnlyText (pushRest st c).core := by
    intro st c h
    rw [core_pushRest]
    exact h.emit [c]
  have hesc : OnlyText (if st.escapeNext then pushRest st bsl else st).core := by
    split
    · exact hpush st bsl h
    · exact h
  have hif : (if st.code then st.pushBuilder bsl else st.pushBuffer bsl) = pushRest st bsl := rfl
  simp only [atEnd, hif]
  generalize (if st.escapeNext then pushRest st bsl else st) = st' at hesc ⊢
  split
  · have hrest := Lib.foldl_invariant (I := fun st : Scan => OnlyText st.core) hpush hesc st'.matchBuf
    exact ⟨hrest.builder, hrest.text⟩
  · exact hesc

/-- A template that is text throughout becomes one statement that prints the text. -/
theorem chunk_of_writes {sep : CString} {tpl t : Bytes} (h : Writes sep tpl t) :
    chunk sep tpl = printStatement t := by
  obtain ⟨htoggles, rfl⟩ := h
  have hstart : OnlyText Scan.init.core := ⟨rfl, rfl⟩
  have hend := onlyText_atEnd (onlyText_run hstart htoggles)
  have hflush := congrArg Core.builder (core_flushTextBuffer (atEnd (scan sep tpl)))
  rw [← finish_eq] at hflush
  calc chunk sep tpl = (atEnd (scan sep tpl)).core.builder ++ printStatement (textOf sep tpl) := hflush
    _ = printStatement (textOf sep tpl) := by rw [scan, hend.builder, List.nil_append]

/-- From any state in text: what is left is read as text exactly when it is one segment,
and then it adds what it decodes to. -/
def ReadAsText (d : Byte) (h0 : d ≠ 0) (tpl : Bytes) : Prop :=
  ∀ (i : Nat) (st : Scan), InText st.core →
    (togglesFrom (CString.single d h0) i st tpl = [] ↔ cut d tpl = [tpl]) ∧
      (cut d tpl = [tpl] →
        (atEnd (tpl.foldl (scanByte (CString.single d h0)) st)).buffer
          = st.buffer ++ decode d false tpl)

theorem readAsText_nil (h0 : d ≠ 0) : ReadAsText d h0 [] := by
  intro i st h
  have hm : st.matchBuf = [] := h.noMatch
  have he : st.escapeNext = false := h.noEscape
  simp [togglesFrom, cut, decode, atEnd, hm, he]

/-- A backslash at the end. -/
theorem readAsText_bsl (h0 : d ≠ 0) (hd : d ≠ bsl) : ReadAsText d h0 [bsl] := by
  intro i st h
  have hm : st.matchBuf = [] := h.noMatch
  have he : st.escapeNext = false := h.noEscape
  have ht : st.code = false := h.text
  have hbyte : scanByte (CString.single d h0) st bsl = { st with escapeNext := true } := by
    simp [scanByte, he]
  have hcut : cut d [bsl] = [[bsl]] := by simp [cut, Ne.symm hd]
  refine ⟨iff_of_true ?_ hcut, fun _ => ?_⟩
  · rw [togglesFrom, hbyte]
    simp [togglesFrom]
  · rw [List.foldl_cons, List.foldl_nil, hbyte]
    simp [atEnd, ht, hm, Scan.pushBuffer, strPushChr, decode]

theorem ReadAsText.byte {h0 : d ≠ 0} {s : Bytes} (ih : ReadAsText d h0 s) (hd : d ≠ bsl) {c : Byte}
    (hb : c ≠ bsl) : ReadAsText d h0 (c :: s) := by
  intro i st h
  have hstep := step_between h.between h.noEscape h0 c
  rw [if_neg hb] at hstep
  rw [togglesFrom_cons_eq_nil, hstep]
  by_cases hc : c = d
  · subst hc
    rw [if_pos rfl, cut_delim hd]
    have hcode : st.core.toggle.code ≠ st.core.code := by simp [Core.toggle, Core.flush, Core.put]
    have hcut : [] :: cut c s ≠ [c :: s] := by simp
    exact ⟨iff_of_false (fun h => hcode h.1) hcut, fun h => absurd h hcut⟩
  · have hcore : (scanByte (CString.single d h0) st c).core = st.core.emit [c] := by
      rw [core_scanByte, hstep, if_neg hc]
    have hbuf : (scanByte (CString.single d h0) st c).buffer = st.buffer ++ [c] :=
      (congrArg Core.buffer hcore).trans (h.emit_buffer [c])
    obtain ⟨htoggles, hread⟩ := ih (i + 1) (scanByte (CString.single d h0) st c) (hcore ▸ h.emit [c])
    have hone : cut d (c :: s) = [c :: s] ↔ cut d s = [s] := by
      rw [cut_cons hb hc]
      exact prepend_eq_singleton (cut_ne_nil s)
    rw [if_neg hc, Core.emit_code, htoggles, hone]
    refine ⟨by simp, ?_⟩
    intro hs
    rw [List.foldl_cons, hread hs, hbuf, decode_cons hb, List.append_assoc, List.singleton_append]

theorem ReadAsText.escape {h0 : d ≠ 0} {s : Bytes} (ih : ReadAsText d h0 s) (x : Byte) :
    ReadAsText d h0 (bsl :: x :: s) := by
  intro i st h
  have hwait := step_between h.between h.noEscape h0 bsl
  rw [if_pos rfl, ← core_scanByte] at hwait
  have hstep := step_escaped h.noEscape h0 x
  rw [← hwait, ← core_scanByte, h.text] at hstep
  have hbuf := (congrArg Core.buffer hstep).trans (h.emit_buffer _)
  obtain ⟨htoggles, hread⟩ := ih (i + 2) _ (hstep ▸ h.emit (decodeEscape d false x))
  have hone : cut d (bsl :: x :: s) = [bsl :: x :: s] ↔ cut d s = [s] := by
    rw [cut_escape]
    exact prepend_eq_singleton (cut_ne_nil s)
  rw [togglesFrom_cons_eq_nil, togglesFrom_cons_eq_nil, ← core_scanByte, ← core_scanByte, hstep,
    hwait, Core.emit_code, htoggles, hone]
  refine ⟨by simp, ?_⟩
  intro hs
  rw [List.foldl_cons, List.foldl_cons, hread hs, decode_escape, ← List.append_assoc]
  exact congrArg (· ++ decode d false s) hbuf

theorem readAsText (h0 : d ≠ 0) (hd : d ≠ bsl) : ∀ tpl : Bytes, ReadAsText d h0 tpl
  | [] => readAsText_nil h0
  | [c] => by
      by_cases hb : c = bsl
      · subst hb
        exact readAsText_bsl h0 hd
      · exact (readAsText_nil h0).byte hd hb
  | c :: x :: s => by
      by_cases hb : c = bsl
      · subst hb
        exact (readAsText h0 hd s).escape x
      · exact (readAsText h0 hd (x :: s)).byte hd hb

/-- A template writes `t` exactly when it is one segment that decodes to `t`. -/
theorem writes_iff (h0 : d ≠ 0) (hd : d ≠ bsl) {tpl t : Bytes} :
    Writes (CString.single d h0) tpl t ↔ cut d tpl = [tpl] ∧ decode d false tpl = t := by
  obtain ⟨htoggles, hread⟩ := readAsText h0 hd tpl 0 Scan.init ⟨rfl, rfl, rfl⟩
  rw [Writes, toggles, htoggles]
  exact and_congr_right fun hcut => by rw [textOf, scan, hread hcut]; rfl

/-! ## Spelling a text -/

/-- The template that writes a text: every delimiter is escaped that is not taken out of the
game by a backslash before it. -/
def spellText (d : Byte) : Bytes → Bytes
  | [] => []
  | [c] => if c = d then [bsl, c] else [c]
  | c :: x :: s =>
      if c = bsl then c :: x :: spellText d s
      else if c = d then bsl :: c :: spellText d (x :: s)
      else c :: spellText d (x :: s)

/-- The backslashes of a text read in pairs: none stands before the delimiter or a newline. -/
def Spellable (d : Byte) : Bytes → Prop
  | [] => True
  | [_] => True
  | c :: x :: s =>
      if c = bsl then (x ≠ d ∧ x ≠ nl) ∧ Spellable d s else Spellable d (x :: s)

theorem spellText_cons {c : Byte} (hb : c ≠ bsl) (s : Bytes) :
    spellText d (c :: s) = (if c = d then [bsl, c] else [c]) ++ spellText d s := by
  cases s with
  | nil => simp [spellText]
  | cons x s =>
      rw [spellText, if_neg hb]
      split <;> rfl

theorem spellable_cons {c : Byte} (hb : c ≠ bsl) {s : Bytes} :
    Spellable d (c :: s) ↔ Spellable d s := by
  cases s with
  | nil => simp [Spellable]
  | cons x s => rw [Spellable, if_neg hb]

theorem spellable_escape {x : Byte} {s : Bytes} :
    Spellable d (bsl :: x :: s) ↔ (x ≠ d ∧ x ≠ nl) ∧ Spellable d s := by
  rw [Spellable, if_pos rfl]

/-- A spelled byte: one segment, that decodes to it. -/
theorem cut_spelled_byte {c : Byte} (hb : c ≠ bsl) {s : Bytes} (hs : cut d s = [s]) :
    cut d ((if c = d then [bsl, c] else [c]) ++ s) = [(if c = d then [bsl, c] else [c]) ++ s] := by
  split
  · exact (cut_escape c s).trans ((prepend_eq_singleton (cut_ne_nil s)).mpr hs)
  · next hc => exact (cut_cons hb hc s).trans ((prepend_eq_singleton (cut_ne_nil s)).mpr hs)

theorem decode_spelled_byte (hnl : d ≠ nl) {c : Byte} (hb : c ≠ bsl) (s : Bytes) :
    decode d false ((if c = d then [bsl, c] else [c]) ++ s) = c :: decode d false s := by
  split
  · next hc =>
      subst hc
      exact (decode_escape c s).trans (by simp [decodeEscape, hnl])
  · exact decode_cons hb s

theorem cut_spellText (hd : d ≠ bsl) : ∀ t : Bytes, cut d (spellText d t) = [spellText d t]
  | [] => rfl
  | [c] => by
      by_cases hb : c = bsl
      · subst hb
        simp [spellText, Ne.symm hd, cut]
      · rw [spellText_cons hb]
        exact cut_spelled_byte hb rfl
  | c :: x :: s => by
      by_cases hb : c = bsl
      · subst hb
        rw [spellText, if_pos rfl, cut_escape]
        exact (prepend_eq_singleton (cut_ne_nil _)).mpr (cut_spellText hd s)
      · rw [spellText_cons hb]
        exact cut_spelled_byte hb (cut_spellText hd (x :: s))

theorem decode_spellText (hd : d ≠ bsl) (hnl : d ≠ nl) :
    ∀ t : Bytes, Spellable d t → decode d false (spellText d t) = t
  | [], _ => rfl
  | [c], _ => by
      by_cases hb : c = bsl
      · subst hb
        simp [spellText, Ne.symm hd, decode]
      · rw [spellText_cons hb]
        exact decode_spelled_byte hnl hb []
  | c :: x :: s, h => by
      by_cases hb : c = bsl
      · subst hb
        obtain ⟨⟨hxd, hxn⟩, hs⟩ := spellable_escape.mp h
        rw [spellText, if_pos rfl, decode_escape, decode_spellText hd hnl s hs]
        simp [decodeEscape, hxd, hxn]
      · rw [spellText_cons hb, decode_spelled_byte hnl hb,
          decode_spellText hd hnl (x :: s) ((spellable_cons hb).mp h)]

/-- Nothing else comes out of a template. -/
theorem spellable_decode (hd : d ≠ bsl) : ∀ tpl : Bytes, Spellable d (decode d false tpl)
  | [] => trivial
  | [_] => trivial
  | c :: x :: s => by
      by_cases hb : c = bsl
      · subst hb
        have ih := spellable_decode hd s
        rw [decode_escape, decodeEscape]
        by_cases hxn : x = nl
        · simpa [hxn] using ih
        · by_cases hxd : x = d
          · subst hxd
            simpa [hxn, spellable_cons hd] using ih
          · simpa [hxn, hxd, spellable_escape] using ih
      · rw [decode_cons hb]
        exact (spellable_cons hb).mpr (spellable_decode hd (x :: s))

theorem exists_writes_iff (h0 : d ≠ 0) (hd : d ≠ bsl) (hnl : d ≠ nl) {t : Bytes} :
    (∃ tpl, Writes (CString.single d h0) tpl t) ↔ Spellable d t := by
  constructor
  · rintro ⟨tpl, htpl⟩
    obtain ⟨-, rfl⟩ := (writes_iff h0 hd).mp htpl
    exact spellable_decode hd tpl
  · intro h
    exact ⟨spellText d t, (writes_iff h0 hd).mpr ⟨cut_spellText hd t, decode_spellText hd hnl t h⟩⟩

/-! ## Runs of backslashes -/

theorem runsEven_nil : RunsEven d [] := by
  intro p k x r h
  exact absurd h.symm (by simp)

/-- What ends in a backslash still does with a byte in front. -/
theorem getLast?_cons_bsl {c : Byte} {p : Bytes} (h : p.getLast? = some bsl) :
    (c :: p).getLast? = some bsl := by
  rw [List.getLast?_cons, h]
  rfl

/-- A byte that is no backslash starts no run. -/
theorem getLast?_cons_ne {c : Byte} (hb : c ≠ bsl) {p : Bytes} (h : p.getLast? ≠ some bsl) :
    (c :: p).getLast? ≠ some bsl := by
  rw [List.getLast?_cons]
  cases hlast : p.getLast? with
  | none => simpa using hb
  | some b => simpa [hlast] using h

theorem runsEven_cons {c : Byte} (hb : c ≠ bsl) {s : Bytes} : RunsEven d (c :: s) ↔ RunsEven d s := by
  constructor
  · intro h p k x r hs hp hx
    exact h (c :: p) k x r (by rw [hs]; rfl) (getLast?_cons_ne hb hp) hx
  · intro h p k x r hs hp hx
    cases p with
    | nil =>
        cases k with
        | zero => exact Even.zero
        | succ k => exact absurd (List.cons.inj hs).1 hb
    | cons b p =>
        exact h p k x r (List.cons.inj hs).2 (fun hlast => hp (getLast?_cons_bsl hlast)) hx

/-- The first two of a run of backslashes can be left out. -/
theorem runsEven_pair (hd : d ≠ bsl) {s : Bytes} :
    RunsEven d (bsl :: bsl :: s) ↔ RunsEven d s := by
  constructor
  · intro h p k x r hs hp hx
    cases p with
    | nil =>
        have hrun : bsl :: bsl :: s = [] ++ List.replicate (k + 2) bsl ++ x :: r := by
          rw [hs]
          rfl
        have heven := h [] (k + 2) x r hrun hp hx
        rwa [Nat.even_add_one, Nat.even_add_one, not_not] at heven
    | cons b p =>
        refine h (bsl :: bsl :: b :: p) k x r (by rw [hs]; rfl) ?_ hx
        rw [List.getLast?_cons_cons, List.getLast?_cons_cons]
        exact hp
  · intro h p k x r hs hp hx
    match p, k with
    | [], 0 => exact Even.zero
    | [], 1 =>
        have hxb : x = bsl := (List.cons.inj (List.cons.inj hs).2).1.symm
        rcases hx with rfl | rfl
        · exact absurd hxb hd
        · exact absurd hxb nl_ne_bsl
    | [], k + 2 =>
        rw [Nat.even_add_one, Nat.even_add_one, not_not]
        exact h [] k x r (List.cons.inj (List.cons.inj hs).2).2 hp hx
    | [b], k => exact absurd (congrArg some (List.cons.inj hs).1.symm) hp
    | b :: b' :: p, k =>
        exact h p k x r (List.cons.inj (List.cons.inj hs).2).2
          (fun hlast => hp (getLast?_cons_bsl (getLast?_cons_bsl hlast))) hx

/-- A single backslash: the byte after it is neither the delimiter nor a newline. -/
theorem runsEven_single {x : Byte} (hb : x ≠ bsl) {s : Bytes} :
    RunsEven d (bsl :: x :: s) ↔ (x ≠ d ∧ x ≠ nl) ∧ RunsEven d s := by
  constructor
  · intro h
    have hone : ¬ (x = d ∨ x = nl) := by
      intro hx
      have heven := h [] 1 x s rfl (by simp) hx
      exact Nat.not_even_one heven
    refine ⟨not_or.mp hone, ?_⟩
    intro p k y r hs hp hy
    refine h (bsl :: x :: p) k y r (by rw [hs]; rfl) ?_ hy
    rw [List.getLast?_cons_cons]
    exact getLast?_cons_ne hb hp
  · rintro ⟨⟨hxd, hxn⟩, h⟩ p k y r hs hp hy
    match p, k with
    | [], 0 => exact Even.zero
    | [], 1 =>
        obtain rfl : x = y := (List.cons.inj (List.cons.inj hs).2).1
        exact absurd hy (not_or.mpr ⟨hxd, hxn⟩)
    | [], k + 2 => exact absurd (List.cons.inj (List.cons.inj hs).2).1 hb
    | [b], k => exact absurd (congrArg some (List.cons.inj hs).1.symm) hp
    | b :: b' :: p, k =>
        exact h p k y r (List.cons.inj (List.cons.inj hs).2).2
          (fun hlast => hp (getLast?_cons_bsl (getLast?_cons_bsl hlast))) hy

/-- A backslash at the end of the text. -/
theorem runsEven_bsl : RunsEven d [bsl] := by
  intro p k x r hs hp hx
  match p, k with
  | [], 0 => exact Even.zero
  | [], k + 1 => exact absurd (List.cons.inj hs).2.symm (by simp)
  | b :: p, k => exact absurd (List.cons.inj hs).2.symm (by simp)

theorem spellable_iff (hd : d ≠ bsl) : ∀ {t : Bytes}, Spellable d t ↔ RunsEven d t
  | [] => iff_of_true trivial runsEven_nil
  | [c] => by
      refine iff_of_true trivial ?_
      by_cases hb : c = bsl
      · subst hb
        exact runsEven_bsl
      · exact (runsEven_cons hb).mpr runsEven_nil
  | c :: x :: s => by
      by_cases hb : c = bsl
      · subst hb
        rw [spellable_escape, spellable_iff hd]
        by_cases hx : x = bsl
        · subst hx
          rw [runsEven_pair hd]
          exact and_iff_right ⟨Ne.symm hd, bsl_ne_nl⟩
        · rw [runsEven_single hx]
      · rw [spellable_cons hb, runsEven_cons hb, spellable_iff hd]

end

/-- **A text can be written exactly when its runs of backslashes before the delimiter or a
newline are even**; the chunk of a template that writes it is the statement that prints it. -/
theorem exists_template_iff (d : Byte) (h0 : d ≠ 0) (hd : d ≠ bsl) (hnl : d ≠ nl) (t : Bytes) :
    ((∃ tpl, Writes (CString.single d h0) tpl t) ↔ RunsEven d t) ∧
      ∀ tpl, Writes (CString.single d h0) tpl t → chunk (CString.single d h0) tpl = printStatement t :=
  ⟨(exists_writes_iff h0 hd hnl).trans (spellable_iff hd), fun _ => chunk_of_writes⟩

/-- The text `a\\%` can be written. -/
theorem exists_template_percent :
    (∃ tpl, Writes (CString.single 37 (by decide)) tpl (ascii "a\\\\%")) ↔
      RunsEven 37 (ascii "a\\\\%") :=
  (exists_template_iff 37 (by decide) (by decide) (by decide) _).1

/-- The text `\%`, a backslash before the delimiter, cannot. -/
theorem not_exists_template :
    ¬ ∃ tpl, Writes (CString.single 37 (by decide)) tpl (ascii "\\%") := by
  rw [exists_writes_iff (by decide) (by decide) (by decide)]
  exact fun h => absurd (spellable_escape.mp h).1.1 (by decide)

end Tmg
