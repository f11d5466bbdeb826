/-
# `Tmg.Reference` — the chunk of a one-byte delimiter, as a translation by segments

The README's account of a template is declarative: the delimiter switches between
text and code, a backslash takes the next byte out of the game.  `reference`
spells it out in three passes,

    cut        the template at every delimiter that no backslash precedes
    decode     each segment, by the escape rules of its mode
    emit       the segments in order, text as a `tmg.print` statement

and `chunk_eq_reference` says that the single pass of `tmg_expand` computes it,
for every template and every one-byte delimiter other than backslash and newline.

The scanner's state is tied to the three passes by `run_from`: from a state with
`builder` and `buffer`, the chunk is `builder` followed by the translation of what
is left of the template, its first segment continuing the text held in `buffer`.
-/
import Tmg.Scanner

namespace Tmg

/-! ## The three passes -/

/-- `bs` put in front of the first segment. -/
def prepend (bs : Bytes) : List Bytes → List Bytes
  | [] => [bs]
  | seg :: segs => (bs ++ seg) :: segs

/-- The template cut at every delimiter `d` that is not consumed by a backslash;
a backslash consumes the byte after it. -/
def cut (d : Byte) : Bytes → List Bytes
  | [] => [[]]
  | [c] => if c = d then [[], []] else [[c]]
  | c :: x :: s =>
      if c = bsl then prepend [c, x] (cut d s)
      else if c = d then [] :: cut d (x :: s)
      else prepend [c] (cut d (x :: s))

/-- A backslash before `x`: a line continuation in text, an escaped delimiter, or
two bytes that stay as they are. -/
def decodeEscape (d : Byte) (code : Bool) (x : Byte) : Bytes :=
  if code = false ∧ x = nl then [] else if x = d then [d] else [bsl, x]

/-- A segment with its escapes decoded; `code` is its mode. -/
def decode (d : Byte) (code : Bool) : Bytes → Bytes
  | [] => []
  | [c] => [c]
  | c :: x :: s =>
      if c = bsl then decodeEscape d code x ++ decode d code s
      else c :: decode d code (x :: s)

/-- What a decoded segment contributes when a delimiter ends it. -/
def emitEnded (code : Bool) (seg : Bytes) : Bytes :=
  if code then seg ++ [nl] else nl :: printStatement seg

/-- What a decoded segment contributes when the file ends it. -/
def emitLast (code : Bool) (seg : Bytes) : Bytes :=
  if code then seg else printStatement seg

/-- The segments in order, from mode `code` on. -/
def translate (d : Byte) : Bool → List Bytes → Bytes
  | _, [] => []
  | code, [seg] => emitLast code (decode d code seg)
  | code, seg :: segs => emitEnded code (decode d code seg) ++ translate d (!code) segs

/-- The chunk of a template, declaratively. -/
def reference (d : Byte) (tpl : Bytes) : Bytes := translate d false (cut d tpl)

/-! ## The invariant -/

section Run

variable {d : Byte}

/-- The translation of what is left, the bytes `held` of the first segment being
decoded already. -/
def translateHeld (d : Byte) (code : Bool) (held : Bytes) : List Bytes → Bytes
  | [] => []
  | [seg] => emitLast code (held ++ decode d code seg)
  | seg :: segs => emitEnded code (held ++ decode d code seg) ++ translate d (!code) segs

theorem translateHeld_nil (code : Bool) (segs : List Bytes) :
    translateHeld d code [] segs = translate d code segs := by
  match segs with
  | [] => rfl
  | [_] => rfl
  | _ :: _ :: _ => rfl

theorem cut_ne_nil : ∀ tpl : Bytes, cut d tpl ≠ []
  | [] => by simp [cut]
  | [c] => by
      rw [cut]; split <;> simp
  | c :: x :: s => by
      have hp : ∀ bs segs, prepend bs segs ≠ [] := by
        intro bs segs
        cases segs <;> simp [prepend]
      rw [cut]
      split
      · exact hp _ _
      · split
        · simp
        · exact hp _ _

/-- Bytes that decode by themselves can be decoded first. -/
theorem translateHeld_prepend {code : Bool} {bs dec : Bytes}
    (hdec : ∀ seg, decode d code (bs ++ seg) = dec ++ decode d code seg) (held : Bytes)
    {segs : List Bytes} (hsegs : segs ≠ []) :
    translateHeld d code held (prepend bs segs) = translateHeld d code (held ++ dec) segs := by
  match segs, hsegs with
  | [seg], _ => simp [prepend, translateHeld, hdec]
  | seg :: seg' :: segs, _ => simp [prepend, translateHeld, hdec]

/-- In code mode what is decoded goes straight to the chunk. -/
theorem translateHeld_code (held : Bytes) {segs : List Bytes} (hsegs : segs ≠ []) :
    translateHeld d true held segs = held ++ translateHeld d true [] segs := by
  match segs, hsegs with
  | [seg], _ => simp [translateHeld, emitLast]
  | seg :: seg' :: segs, _ => simp [translateHeld, emitEnded]

/-- The states between two bytes for a one-byte delimiter: no partial match, and
nothing in the text buffer while in code. -/
structure Between (k : Core) : Prop where
  noMatch : k.matchBuf = []
  noText : k.code = true → k.buffer = []

theorem Between.emit {k : Core} (h : Between k) (bs : Bytes) : Between (k.emit bs) := by
  refine ⟨by simpa using h.noMatch, ?_⟩
  intro hcode
  rw [Core.emit_code] at hcode
  simp [Core.emit, hcode, Core.put, h.noText hcode]

theorem Between.toggle (k : Core) : Between k.toggle := ⟨rfl, fun _ => rfl⟩

/-- Emitting decoded bytes is decoding them ahead of the segments left. -/
theorem emit_translateHeld {k : Core} (h : Between k) (bs : Bytes) {segs : List Bytes}
    (hsegs : segs ≠ []) :
    (k.emit bs).builder ++ translateHeld d k.code (k.emit bs).buffer segs
      = k.builder ++ translateHeld d k.code (k.buffer ++ bs) segs := by
  cases hcode : k.code
  · simp [Core.emit, hcode, Core.hold]
  · rw [translateHeld_code _ hsegs, translateHeld_code (k.buffer ++ bs) hsegs, h.noText hcode]
    simp [Core.emit, hcode, Core.put, h.noText hcode]

/-- At a delimiter the segment read so far is complete. -/
theorem toggle_translateHeld {k : Core} (h : Between k) (segs : List Bytes) (hsegs : segs ≠ []) :
    k.toggle.builder ++ translateHeld d k.toggle.code k.toggle.buffer segs
      = k.builder ++ translateHeld d k.code k.buffer ([] :: segs) := by
  obtain ⟨seg, segs, rfl⟩ := List.exists_cons_of_ne_nil hsegs
  have hbuf : k.toggle.buffer = [] := rfl
  have hcode : k.toggle.code = !k.code := rfl
  have hbuilder : k.toggle.builder = k.builder ++ [nl] ++ printStatement k.buffer := rfl
  rw [hbuf, hcode, hbuilder, translateHeld_nil]
  cases hc : k.code
  · simp [translateHeld, emitEnded, decode]
  · simp [translateHeld, emitEnded, decode, h.noText hc, printStatement]

/-- The step between two bytes: a backslash waits, a delimiter toggles, anything
else is passed on. -/
theorem step_between {k : Core} (h : Between k) (hesc : k.escapeNext = false) (h0 : d ≠ 0)
    (c : Byte) :
    k.step (CString.single d h0) c
      = if c = bsl then { k with escapeNext := true }
        else if c = d then k.toggle else k.emit [c] := by
  have hm : ({ k with matchBuf := [], escapeNext := false } : Core) = k := by
    rw [← h.noMatch, ← hesc]
  have hpre : [c] <+: [d] ↔ c = d := by simp [List.cons_prefix_cons]
  simp only [Core.step, hesc, h.noMatch, CString.single, List.nil_append, hpre]
  by_cases hb : c = bsl
  · simp [hb]
  · by_cases hcd : c = d
    · simp [hcd]
    · simp [hb, hcd, hm]

/-- The byte after a backslash is decoded. -/
theorem step_escaped {k : Core} (hesc : k.escapeNext = false) (h0 : d ≠ 0) (x : Byte) :
    ({ k with escapeNext := true } : Core).step (CString.single d h0) x
      = k.emit (decodeEscape d k.code x) := by
  have he : ({ k with escapeNext := false } : Core) = k := by rw [← hesc]
  have hdec : Core.escaped (CString.single d h0) k.code x = decodeEscape d k.code x := by
    unfold Core.escaped decodeEscape suppressesDelim
    by_cases hxd : x = d
    · simp [CString.single, hxd]
    · simp [CString.single, hxd, Ne.symm hxd]
  simp [Core.step, he, hdec]

/-- At end of file a pending backslash is kept. -/
theorem finish_between (d : Byte) {k : Core} (h : Between k) :
    k.finish.builder
      = k.builder ++ translateHeld d k.code (k.buffer ++ if k.escapeNext then [bsl] else []) [[]] := by
  have hm : (k.emit (if k.escapeNext then [bsl] else [])).matchBuf = [] := by
    rw [Core.emit_matchBuf, h.noMatch]
  have hfin : k.finish.builder = (k.emit (if k.escapeNext then [bsl] else [])).builder
      ++ printStatement (k.emit (if k.escapeNext then [bsl] else [])).buffer := by
    simp only [Core.finish, hm, Core.emit_nil]
    rfl
  rw [hfin, ← emit_translateHeld h _ (by simp)]
  congr 1
  cases hcode : k.code
  · simp [translateHeld, emitLast, decode]
  · have hbuf := (h.emit (if k.escapeNext then [bsl] else [])).noText (by simpa using hcode)
    simp [translateHeld, emitLast, decode, hbuf, printStatement]

/-- **The invariant of the loop.**  From a state between two bytes the chunk is what
is there, followed by the translation of what is left of the template. -/
theorem run_from (h0 : d ≠ 0) (hd : d ≠ bsl) :
    ∀ (tpl : Bytes) (k : Core), Between k → k.escapeNext = false →
      (tpl.foldl (Core.step (CString.single d h0)) k).finish.builder
        = k.builder ++ translateHeld d k.code k.buffer (cut d tpl)
  | [], k, h, hesc => by
      simpa [hesc, cut] using finish_between d h
  | [c], k, h, hesc => by
      rw [List.foldl_cons, step_between h hesc]
      by_cases hb : c = bsl
      · -- a lone backslash at end of file
        have hne : bsl ≠ d := Ne.symm hd
        have hw : Between { k with escapeNext := true } := ⟨h.noMatch, h.noText⟩
        rw [if_pos hb, List.foldl_nil, finish_between d hw]
        simp [hb, cut, hne, translateHeld, decode]
      · by_cases hcd : c = d
        · rw [if_neg hb, if_pos hcd, run_from h0 hd [] _ (Between.toggle k) hesc]
          simp only [cut, if_pos hcd]
          exact toggle_translateHeld h _ (by simp)
        · rw [if_neg hb, if_neg hcd, run_from h0 hd [] _ (h.emit [c]) (by simpa using hesc)]
          rw [Core.emit_code, emit_translateHeld h _ (cut_ne_nil [])]
          simp [cut, hcd, translateHeld, decode]
  | c :: x :: s, k, h, hesc => by
      rw [List.foldl_cons, step_between h hesc]
      by_cases hb : c = bsl
      · rw [if_pos hb, List.foldl_cons, step_escaped hesc,
          run_from h0 hd s _ (h.emit _) (by simpa using hesc), Core.emit_code,
          emit_translateHeld h _ (cut_ne_nil s)]
        have hcut : cut d (c :: x :: s) = prepend [c, x] (cut d s) := by simp [cut, hb]
        rw [hcut, translateHeld_prepend _ _ (cut_ne_nil s)]
        intro seg
        simp [decode, hb]
      · by_cases hcd : c = d
        · have hcut : cut d (c :: x :: s) = [] :: cut d (x :: s) := by
            rw [cut, if_neg hb, if_pos hcd]
          rw [if_neg hb, if_pos hcd, run_from h0 hd (x :: s) _ (Between.toggle k) hesc, hcut]
          exact toggle_translateHeld h _ (cut_ne_nil _)
        · have hcut : cut d (c :: x :: s) = prepend [c] (cut d (x :: s)) := by
            simp [cut, hb, hcd]
          rw [if_neg hb, if_neg hcd, run_from h0 hd (x :: s) _ (h.emit [c]) (by simpa using hesc),
            Core.emit_code, emit_translateHeld h _ (cut_ne_nil _), hcut,
            translateHeld_prepend _ _ (cut_ne_nil _)]
          intro seg
          cases seg <;> simp [decode, hb]

end Run

/-- **The chunk of a one-byte delimiter is the reference translation**, for every
template. -/
theorem chunk_eq_reference (d : Byte) (h0 : d ≠ 0) (hd : d ≠ bsl) (tpl : Bytes) :
    chunk (CString.single d h0) tpl = reference d tpl := by
  have hstart : Between Scan.init.core := ⟨rfl, fun _ => rfl⟩
  have hrun := run_from h0 hd tpl Scan.init.core hstart rfl
  rw [← core_scan, ← core_finish] at hrun
  calc chunk (CString.single d h0) tpl
      = (finish (scan (CString.single d h0) tpl)).core.builder := rfl
    _ = translateHeld d false [] (cut d tpl) := hrun
    _ = reference d tpl := translateHeld_nil false _

theorem chunk_eq_reference_percent :
    chunk (CString.single 37 (by decide)) (ascii "a%x\\%1%\\%b\\") = reference 37 (ascii "a%x\\%1%\\%b\\") :=
  chunk_eq_reference 37 (by decide) (by decide) _

end Tmg
