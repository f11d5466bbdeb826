/-
# `Tmg.Statement` — where a print statement ends

A text becomes the statement `tmg.print([[…]])`, with a newline behind it, and the code of
the next block follows.  In Lua a newline does not end a statement: a call goes on with every
suffix that comes next, and LuaJIT rejects an opening parenthesis on a new line as ambiguous.

    template    text%(f or g)()%        chunk    tmg.print([[text]])
                                                 (f or g)()

Of the tokens that a call goes on with the opening parenthesis is the only one that a block
can begin with (`continues_iff`), so these are the blocks that break the statement before
them, and `printsStandAlone_iff` says that nothing else does.

`segments` is the template as the scanner takes it apart, for every delimiter: what is passed
on from one change of the mode to the next, a text first.  `chunk_eq_compose` puts the chunk
together from it.
-/
import Mathlib.Algebra.Group.Nat.Even
import Tmg.Reference
import Tmg.Steps
import Tmg.Lua.Token

namespace Tmg

open Lua

/-! ## The segments of a template -/

/-- What a byte passes on in the current mode. -/
def Core.passed (sep : CString) (k : Core) (c : Byte) : Bytes :=
  if k.escapeNext then Core.escaped sep k.code c
  else if c = bsl ∨ k.matchBuf ++ [c] <+: sep.bytes then []
  else k.matchBuf ++ [c]

/-- What is passed on at end of file. -/
def Core.pendingBytes (k : Core) : Bytes := (if k.escapeNext then [bsl] else []) ++ k.matchBuf

/-- The segments from state `k` on, `held` of the first one being read. -/
def segmentsFrom (sep : CString) (k : Core) (held : Bytes) : Bytes → List Bytes
  | [] => [held ++ k.pendingBytes]
  | c :: s =>
      if (k.step sep c).code = k.code then
        segmentsFrom sep (k.step sep c) (held ++ k.passed sep c) s
      else held :: segmentsFrom sep (k.step sep c) [] s

/-- The segments of a template: texts and codes by turns, a text first. -/
def segments (sep : CString) (tpl : Bytes) : List Bytes := segmentsFrom sep Scan.init.core [] tpl

/-- The chunk of some segments, the first one being of mode `code`. -/
def compose : Bool → List Bytes → Bytes
  | _, [] => []
  | code, [seg] => emitLast code seg
  | code, seg :: segs => emitEnded code seg ++ compose (!code) segs

theorem compose_cons_cons (code : Bool) (seg seg' : Bytes) (segs : List Bytes) :
    compose code (seg :: seg' :: segs) = emitEnded code seg ++ compose (!code) (seg' :: segs) := rfl

theorem segmentsFrom_ne_nil (sep : CString) (k : Core) (held tpl : Bytes) :
    segmentsFrom sep k held tpl ≠ [] := by
  induction tpl generalizing k held with
  | nil => simp [segmentsFrom]
  | cons c s ih =>
      rw [segmentsFrom]
      split
      · exact ih _ _
      · simp

/-- What a state has of the segment that it reads, `base` being the chunk before it. -/
structure Holds (k : Core) (base held : Bytes) : Prop where
  builder : k.builder = base ++ if k.code then held else []
  buffer : k.buffer = if k.code then [] else held

theorem Holds.emit {k : Core} {base held : Bytes} (h : Holds k base held) (bs : Bytes) :
    Holds (k.emit bs) base (held ++ bs) := by
  obtain ⟨hbuilder, hbuffer⟩ := h
  cases hcode : k.code
  · exact ⟨by simp_all [Core.emit, Core.hold], by simp_all [Core.emit, Core.hold]⟩
  · exact ⟨by simp_all [Core.emit, Core.put], by simp_all [Core.emit, Core.put]⟩

/-- Where the mode stays, a byte passes bytes on. -/
theorem Holds.step {k : Core} {base held : Bytes} (h : Holds k base held) (sep : CString) (c : Byte)
    (hmode : (k.step sep c).code = k.code) :
    Holds (k.step sep c) base (held ++ k.passed sep c) := by
  generalize hk : k.step sep c = k' at hmode
  have hcase := Core.step_cases sep k c
  rw [hk] at hcase
  cases hcase with
  | escaped hesc =>
      rw [Core.passed, if_pos hesc]
      exact Holds.emit (k := { k with escapeNext := false }) ⟨h.builder, h.buffer⟩ _
  | waiting hesc hb =>
      rw [Core.passed, hesc, if_neg (by decide), if_pos (Or.inl hb), List.append_nil]
      exact ⟨h.builder, h.buffer⟩
  | toggled _ _ _ => exact absurd hmode (by simp [Core.toggle, Core.flush, Core.put])
  | matched hesc _ _ hpre =>
      rw [Core.passed, hesc, if_neg (by decide), if_pos (Or.inr hpre), List.append_nil]
      exact ⟨h.builder, h.buffer⟩
  | failed hesc hb hpre =>
      have hpassed : k.passed sep c = k.matchBuf ++ [c] := by
        rw [Core.passed, hesc, if_neg (by decide), if_neg (not_or.mpr ⟨hb, hpre⟩)]
      rw [hpassed]
      exact Holds.emit (k := { k with matchBuf := [] }) ⟨h.builder, h.buffer⟩ _

/-- At a delimiter the segment is complete. -/
theorem Holds.toggle {k : Core} {base held : Bytes} (h : Holds k base held) :
    Holds k.toggle (base ++ emitEnded k.code held) [] := by
  obtain ⟨hbuilder, hbuffer⟩ := h
  refine ⟨?_, by simp [Core.toggle, Core.flush]⟩
  show k.builder ++ [nl] ++ printStatement k.buffer = _
  rw [hbuilder, hbuffer]
  cases hcode : k.code
  · simp [emitEnded]
  · simp [emitEnded, printStatement]

/-- So it is at end of file. -/
theorem Holds.finish {k : Core} {base held : Bytes} (h : Holds k base held) :
    k.finish.builder = base ++ emitLast k.code (held ++ k.pendingBytes) := by
  have hlast := h.emit k.pendingBytes
  have hfin : k.finish.builder =
      (k.emit k.pendingBytes).builder ++ printStatement (k.emit k.pendingBytes).buffer := by
    rw [Core.pendingBytes, ← Core.emit_emit, Core.finish]
    simp only [Core.emit_matchBuf]
    rfl
  rw [hfin, hlast.builder, hlast.buffer, Core.emit_code]
  cases hcode : k.code
  · simp [emitLast]
  · simp [emitLast, printStatement]

/-- **The chunk from any state on** is put together from the segments. -/
theorem run_compose (sep : CString) :
    ∀ (tpl : Bytes) (k : Core) (base held : Bytes), Holds k base held →
      (tpl.foldl (Core.step sep) k).finish.builder
        = base ++ compose k.code (segmentsFrom sep k held tpl)
  | [], k, base, held, h => h.finish
  | c :: s, k, base, held, h => by
      rw [List.foldl_cons, segmentsFrom]
      by_cases hmode : (k.step sep c).code = k.code
      · rw [if_pos hmode, run_compose sep s _ base _ (h.step sep c hmode), hmode]
      · obtain ⟨-, -, -, htoggle⟩ := Core.toggled_of_code_ne hmode
        have hcode : k.toggle.code = !k.code := rfl
        obtain ⟨seg, segs, hsegs⟩ := List.exists_cons_of_ne_nil
          (segmentsFrom_ne_nil sep k.toggle [] s)
        rw [if_neg hmode, htoggle, run_compose sep s k.toggle _ [] h.toggle, hsegs,
          compose_cons_cons, hcode, List.append_assoc]

theorem chunk_eq_compose (sep : CString) (tpl : Bytes) :
    chunk sep tpl = compose false (segments sep tpl) := by
  have hrun := run_compose sep tpl Scan.init.core [] [] ⟨rfl, rfl⟩
  rw [← core_scan, ← core_finish] at hrun
  exact hrun

/-! ## The tokens of a call -/

/-- `expr_primary_nav`: the tokens that a call goes on with, `(`, `[`, `{`, `:` and `.` among
them. -/
def continues : Token → Bool
  | .string => true
  | .nav => true
  | .char c => c ∈ ([40, 91, 123, 58, 46] : Bytes)
  | _ => false

/-- `parse_chunk` and `parse_stmt`: no other token begins a chunk, or is at the end of one
without statements. -/
def startsChunk : Token → Bool
  | .eof => true
  | .name => true
  | .label => true
  | .char c => c = 40
  | _ => false

/-- Of these a call goes on with the opening parenthesis. -/
theorem continues_iff {t : Token} (h : startsChunk t = true) :
    continues t = true ↔ t = .char 40 := by
  cases t with
  | char c =>
      obtain rfl : c = 40 := by simpa [startsChunk] using h
      decide
  | eof => decide
  | name => decide
  | label => decide
  | number => exact absurd h (by decide)
  | string => exact absurd h (by decide)
  | nav => exact absurd h (by decide)
  | op => exact absurd h (by decide)
  | bad => exact absurd h (by decide)

theorem firstToken_printStatement {t : Bytes} (ht : t ≠ []) (rest : Bytes) :
    firstToken (printStatement t ++ rest) = .name := by
  rw [printStatement, if_neg ht]
  rfl

/-- The first token from a text on: that of its statement, if it has one. -/
theorem firstToken_compose_text (text : Bytes) (segs : List Bytes) :
    firstToken (compose false (text :: segs)) =
      if text = [] then firstToken (compose true segs) else .name := by
  by_cases ht : text = []
  · subst ht
    cases segs with
    | nil => rfl
    | cons seg segs => exact firstToken_nl _
  · rw [if_neg ht]
    cases segs with
    | nil =>
        have hlast := firstToken_printStatement ht []
        rwa [List.append_nil] at hlast
    | cons seg segs =>
        rw [compose_cons_cons, emitEnded, if_neg (by decide), List.cons_append, firstToken_nl]
        exact firstToken_printStatement ht _

/-! ## The statements of the texts -/

/-- The code segments of some segments, the first one being of mode `code`. -/
def codeSegments : Bool → List Bytes → List Bytes
  | _, [] => []
  | false, _ :: segs => codeSegments true segs
  | true, seg :: segs => seg :: codeSegments false segs

/-- No token behind the statement that prints a text is one that a call goes on with. -/
def PrintsStandAlone (sep : CString) (tpl : Bytes) : Prop :=
  ∀ done text segs, segments sep tpl = done ++ text :: segs → Even done.length → text ≠ [] →
    continues (firstToken (compose true segs)) = false

/-- The first code that holds more than blanks and comments begins with a parenthesis, and
only empty texts stand before it. -/
def ParenFollows : List Bytes → Prop
  | [] => False
  | [code] => firstToken code = .char 40
  | code :: text :: segs =>
      firstToken code = .char 40 ∨ firstToken code = .eof ∧ text = [] ∧ ParenFollows segs

/-- No text is followed by such a code. -/
def NoParenFollows (sep : CString) (tpl : Bytes) : Prop :=
  ∀ done text segs, segments sep tpl = done ++ text :: segs → Even done.length → text ≠ [] →
    ¬ ParenFollows segs

theorem compose_append (text : Bytes) (segs : List Bytes) :
    ∀ {done : List Bytes}, Even done.length →
      ∃ front, compose false (done ++ text :: segs) = front ++ compose false (text :: segs)
  | [], _ => ⟨[], rfl⟩
  | [_], h => absurd h Nat.not_even_one
  | [seg, code], _ => ⟨emitEnded false seg ++ emitEnded true code, by simp [compose]⟩
  | seg :: code :: next :: done, h => by
      rw [List.length_cons, List.length_cons, Nat.even_add_one, Nat.even_add_one, not_not] at h
      obtain ⟨front, hfront⟩ := compose_append text segs h
      refine ⟨emitEnded false seg ++ (emitEnded true code ++ front), ?_⟩
      simp only [List.cons_append, List.append_assoc] at hfront ⊢
      rw [compose_cons_cons, compose_cons_cons, Bool.not_false, Bool.not_true, hfront]

/-- Where the statement of a text stands in the chunk: right before what is composed of the
segments behind the text. -/
theorem chunk_split {sep : CString} {tpl text : Bytes} {done segs : List Bytes}
    (hsplit : segments sep tpl = done ++ text :: segs) (heven : Even done.length) :
    ∃ front, chunk sep tpl = front ++ printStatement text ++ compose true segs := by
  obtain ⟨front, hfront⟩ := compose_append text segs heven
  rw [chunk_eq_compose, hsplit, hfront]
  cases segs with
  | nil => exact ⟨front, by simp [compose, emitLast]⟩
  | cons seg segs =>
      exact ⟨front ++ [nl], by simp [compose_cons_cons, emitEnded]⟩

theorem continues_compose_iff :
    ∀ {segs : List Bytes}, (∀ code ∈ codeSegments true segs, startsChunk (firstToken code) = true) →
      (continues (firstToken (compose true segs)) = true ↔ ParenFollows segs)
  | [], _ => by simp [compose, firstToken, lexScan, continues, ParenFollows]
  | [code], h => continues_iff (h code (List.mem_singleton_self code))
  | code :: text :: segs, h => by
      rw [codeSegments, codeSegments, List.forall_mem_cons] at h
      have hbad : firstToken code ≠ .bad := fun hb => absurd (hb ▸ h.1) (by decide)
      have hcode : compose true (code :: text :: segs) = code ++ nl :: compose false (text :: segs) := by
        rw [compose_cons_cons, emitEnded, if_pos rfl, List.append_assoc]
        rfl
      rw [hcode, firstToken_append hbad, ParenFollows, firstToken_compose_text]
      by_cases heof : firstToken code = .eof
      · by_cases ht : text = []
        · simp [heof, ht, continues_compose_iff h.2]
        · simp [heof, ht, continues]
      · simp [heof, continues_iff h.1]

/-- The code behind a text is code of the template. -/
theorem codeSegments_subset (text : Bytes) (segs : List Bytes) :
    ∀ {done : List Bytes}, Even done.length →
      codeSegments true segs ⊆ codeSegments false (done ++ text :: segs)
  | [], _ => List.Subset.refl _
  | [_], h => absurd h Nat.not_even_one
  | _ :: code :: done, h => by
      rw [List.length_cons, List.length_cons, Nat.even_add_one, Nat.even_add_one, not_not] at h
      exact List.Subset.trans (codeSegments_subset text segs h) (List.subset_cons_self _ _)

/-- **The statements of the texts stand alone** exactly when no code that follows a text,
behind blanks and comments, begins with an opening parenthesis.  `valid` are the sequences
of statements, of which nothing is used but the tokens that they can begin with. -/
theorem printsStandAlone_iff (valid : Bytes → Prop)
    (hvalid : ∀ code, valid code → startsChunk (firstToken code) = true) (sep : CString) (tpl : Bytes)
    (hcode : ∀ code ∈ codeSegments false (segments sep tpl), valid code) :
    PrintsStandAlone sep tpl ↔ NoParenFollows sep tpl := by
  refine forall_congr' fun done => forall_congr' fun text => forall_congr' fun segs =>
    forall_congr' fun hsplit => forall_congr' fun heven => forall_congr' fun _ => ?_
  have hstarts : ∀ code ∈ codeSegments true segs, startsChunk (firstToken code) = true := by
    intro code hmem
    refine hvalid code (hcode code ?_)
    rw [hsplit]
    exact codeSegments_subset text segs heven hmem
  rw [← continues_compose_iff hstarts, Bool.not_eq_true]

/-- The code ` x = 1 ` behind the text `a`. -/
theorem printsStandAlone_assignment :
    PrintsStandAlone (CString.single 37 (by decide)) (ascii "a% x = 1 %b") ↔
      NoParenFollows (CString.single 37 (by decide)) (ascii "a% x = 1 %b") :=
  printsStandAlone_iff (fun code => code = ascii " x = 1 ") (by rintro _ rfl; decide)
    (CString.single 37 (by decide)) (ascii "a% x = 1 %b") (by decide)

/-- The code `(f)()` behind the text `a` goes on with its statement. -/
theorem not_printsStandAlone_paren :
    codeSegments false (segments (CString.single 37 (by decide)) (ascii "a%(f)()%")) =
        [ascii "(f)()"] ∧
      ¬ PrintsStandAlone (CString.single 37 (by decide)) (ascii "a%(f)()%") := by
  refine ⟨by decide, fun h => ?_⟩
  have halone := h [] (ascii "a") [ascii "(f)()", []] (by decide) (by decide) (by decide)
  exact absurd halone (by decide)

end Tmg
