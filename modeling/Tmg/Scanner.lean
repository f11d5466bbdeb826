/-
# `Tmg.Scanner` — the scanner of `tmg_expand`

`tmg_expand` reads a template byte by byte and builds a Lua chunk.  Its loop is
the step function `scanByte`; the state `Scan` holds every variable the loop
reads or writes:

| source | here |
| :-- | :-- |
| `match_buf`, `builder`, `buffer` | `matchBuf`, `builder`, `buffer` |
| `lm`, `gen_line`, `cur_line` | `lm`, `genLine`, `curLine` |
| `code`, `escape_next` | `code`, `escapeNext` |

`flushTextBuffer` is `flush_text_buffer`, `finish` what follows the loop at end
of file, `chunk` the content of `builder` that is handed to Lua.

The second half of the module drops the line bookkeeping, which no branch
depends on.  `Core` is what is left and `Core.step` its step function, written
with one `emit` for both modes; `core_scanByte` says that the scanner's step is
that one.  Everything proved about the bytes of the chunk goes through `Core`.
-/
import Tmg.Str
import Tmg.Lib.LongBracket

namespace Tmg

open Lib

/-- The variables of the loop of `tmg_expand`. -/
structure Scan where
  matchBuf : Bytes
  builder : Bytes
  buffer : Bytes
  lm : List Nat
  genLine : Nat
  curLine : Nat
  code : Bool
  escapeNext : Bool
deriving DecidableEq, Repr

namespace Scan

/-- The state before the first byte: one generated line, mapped to line 1. -/
def init : Scan :=
  { matchBuf := [], builder := [], buffer := [], lm := [1], genLine := 1, curLine := 1,
    code := false, escapeNext := false }

/-- `str_push_chr(&builder, c)` -/
def pushBuilder (st : Scan) (c : Byte) : Scan :=
  { st with builder := strPushChr st.builder c }

/-- `str_push_chr(&buffer, c)` -/
def pushBuffer (st : Scan) (c : Byte) : Scan :=
  { st with buffer := strPushChr st.buffer c }

/-- `note_newline`: the chunk has one more line, which comes from `origLine`. -/
def noteNewline (st : Scan) (origLine : Nat) : Scan :=
  { st with genLine := st.genLine + 1, lm := st.lm ++ [origLine] }

/-- A byte pushed to the chunk; `if (ch == '\n') note_newline(...)`. -/
def pushNoted (st : Scan) (ch : Byte) : Scan :=
  let st := st.pushBuilder ch
  if ch = nl then st.noteNewline st.curLine else st

end Scan

/-! ## `flush_text_buffer` -/

/-- The search for the longest `]=⋯=]` of the buffer, `maxEquals` being one more
than the longest found so far. -/
def maxEqualsFrom (maxEquals : Nat) : Bytes → Nat
  | [] => maxEquals
  | c :: rest =>
      if c = rbr then
        let equals := (rest.takeWhile (· = eqs)).length
        if (rest.dropWhile (· = eqs)).head? = some rbr then
          maxEqualsFrom (if maxEquals ≤ equals then equals + 1 else maxEquals) rest
        else maxEqualsFrom maxEquals rest
      else maxEqualsFrom maxEquals rest

/-- `max_equals` of a text buffer. -/
def maxEquals (buffer : Bytes) : Nat := maxEqualsFrom 0 buffer

/-- `for (int i = 0; i < max_equals; i++) str_push_chr(builder, '=')` -/
def pushEquals : Nat → Scan → Scan
  | 0, st => st
  | n + 1, st => pushEquals n (st.pushBuilder eqs)

/-- `flush_text_buffer` -/
def flushTextBuffer (st : Scan) : Scan :=
  if st.buffer.length = 0 then st
  else
    let buffer := st.buffer
    let n := maxEquals buffer
    let st := { st with builder := strPush st.builder (ascii "tmg.print([") }
    let st := (pushEquals n st).pushBuilder lbr
    let st := buffer.foldl Scan.pushNoted st
    let st := pushEquals n (st.pushBuilder rbr)
    let st := { st with builder := strPush st.builder (ascii "])\n") }
    let st := st.noteNewline st.curLine
    { st with buffer := [] }

/-! ## The loop of `tmg_expand` -/

/-- `sepsize > 0 && c == sep[0]` -/
def suppressesDelim (sep : CString) (c : Byte) : Bool :=
  decide (sep.bytes.head? = some c)

/-- The branch `escape_next`: `c` is the byte after a backslash. -/
def escapeByte (sep : CString) (st : Scan) (c : Byte) : Scan :=
  let st := { st with escapeNext := false }
  if st.code then
    let st := if suppressesDelim sep c then st else st.pushBuilder bsl
    st.pushNoted c
  else if c = nl then st
  else
    let st := if suppressesDelim sep c then st else st.pushBuffer bsl
    st.pushBuffer c

/-- A complete delimiter: the chunk gets a newline, the mode changes, the text
read so far is printed. -/
def toggle (st : Scan) : Scan :=
  let st := st.pushBuilder nl
  let st := st.noteNewline st.curLine
  let st := { st with code := !st.code }
  let st := flushTextBuffer st
  { st with matchBuf := [] }

/-- One byte of a failed match, passed on in the current mode. -/
def pushMatched (st : Scan) (ch : Byte) : Scan :=
  if st.code then st.pushNoted ch else st.pushBuffer ch

/-- A byte that is neither escaped nor a backslash. -/
def matchByte (sep : CString) (st : Scan) (c : Byte) : Scan :=
  let st := { st with matchBuf := strPushChr st.matchBuf c }
  if st.matchBuf.length ≤ sep.strlen ∧ strncmp st.matchBuf sep.bytes st.matchBuf.length = 0 then
    if st.matchBuf.length = sep.strlen then toggle st else st
  else { st.matchBuf.foldl pushMatched st with matchBuf := [] }

/-- One turn of the loop of `tmg_expand`. -/
def scanByte (sep : CString) (st : Scan) (c : Byte) : Scan :=
  let st := if c = nl then { st with curLine := st.curLine + 1 } else st
  if st.escapeNext then escapeByte sep st c
  else if c = bsl then { st with escapeNext := true }
  else matchByte sep st c

/-- The state after the template's bytes `tpl`. -/
def scan (sep : CString) (tpl : Bytes) : Scan := tpl.foldl (scanByte sep) Scan.init

/-- At end of file a byte of `match_buf` is pushed without a look at newlines. -/
def pushRest (st : Scan) (ch : Byte) : Scan :=
  if st.code then st.pushBuilder ch else st.pushBuffer ch

/-- What follows the loop: a pending backslash, a pending match, the last text. -/
def finish (st : Scan) : Scan :=
  let st :=
    if st.escapeNext then (if st.code then st.pushBuilder bsl else st.pushBuffer bsl) else st
  let st :=
    if st.matchBuf.length > 0 then { st.matchBuf.foldl pushRest st with matchBuf := [] } else st
  flushTextBuffer st

/-- The Lua chunk `tmg_expand` builds from the template `tpl`. -/
def chunk (sep : CString) (tpl : Bytes) : Bytes := (finish (scan sep tpl)).builder

/-! ## The scanner without its line map -/

/-- The variables the chunk's bytes depend on. -/
@[ext] structure Core where
  matchBuf : Bytes
  builder : Bytes
  buffer : Bytes
  code : Bool
  escapeNext : Bool
deriving DecidableEq, Repr

/-- The scanner's state without `lm`, `genLine` and `curLine`. -/
def Scan.core (st : Scan) : Core :=
  { matchBuf := st.matchBuf, builder := st.builder, buffer := st.buffer, code := st.code,
    escapeNext := st.escapeNext }

/-- The long string that `flush_text_buffer` wraps around `t`. -/
def longLiteral (t : Bytes) : Bytes :=
  lbr :: (List.replicate (maxEquals t) eqs ++ lbr :: (t ++ closing rbr eqs (maxEquals t)))

/-- The statement that prints the text `t`; nothing for the empty text. -/
def printStatement (t : Bytes) : Bytes :=
  if t = [] then [] else ascii "tmg.print(" ++ (longLiteral t ++ ascii ")\n")

namespace Core

/-- Bytes appended to the chunk. -/
def put (k : Core) (bs : Bytes) : Core := { k with builder := k.builder ++ bs }

/-- Bytes appended to the text buffer. -/
def hold (k : Core) (bs : Bytes) : Core := { k with buffer := k.buffer ++ bs }

/-- Bytes passed on in the current mode. -/
def emit (k : Core) (bs : Bytes) : Core := if k.code then k.put bs else k.hold bs

/-- What an escaped byte `c` stands for. -/
def escaped (sep : CString) (code : Bool) (c : Byte) : Bytes :=
  if code = false ∧ c = nl then []
  else if suppressesDelim sep c then [c] else [bsl, c]

/-- `flush_text_buffer` -/
def flush (k : Core) : Core :=
  { k.put (printStatement k.buffer) with buffer := [] }

/-- A complete delimiter. -/
def toggle (k : Core) : Core :=
  { ({ k with code := !k.code }.put [nl]).flush with matchBuf := [] }

/-- One turn of the loop, on the variables the chunk depends on. -/
def step (sep : CString) (k : Core) (c : Byte) : Core :=
  if k.escapeNext then { k with escapeNext := false }.emit (escaped sep k.code c)
  else if c = bsl then { k with escapeNext := true }
  else if k.matchBuf ++ [c] = sep.bytes then k.toggle
  else if k.matchBuf ++ [c] <+: sep.bytes then { k with matchBuf := k.matchBuf ++ [c] }
  else { k with matchBuf := [] }.emit (k.matchBuf ++ [c])

/-- What follows the loop. -/
def finish (k : Core) : Core :=
  let k := k.emit (if k.escapeNext then [bsl] else [])
  { k.emit k.matchBuf with matchBuf := [] }.flush

@[simp] theorem put_nil (k : Core) : k.put [] = k := by simp [put]

@[simp] theorem hold_nil (k : Core) : k.hold [] = k := by simp [hold]

@[simp] theorem put_put (k : Core) (a b : Bytes) : (k.put a).put b = k.put (a ++ b) := by
  simp [put]

@[simp] theorem emit_nil (k : Core) : k.emit [] = k := by simp [emit]

@[simp] theorem emit_code (k : Core) (a : Bytes) : (k.emit a).code = k.code := by
  unfold emit; split <;> rfl

@[simp] theorem emit_matchBuf (k : Core) (a : Bytes) : (k.emit a).matchBuf = k.matchBuf := by
  unfold emit; split <;> rfl

@[simp] theorem emit_escapeNext (k : Core) (a : Bytes) :
    (k.emit a).escapeNext = k.escapeNext := by
  unfold emit; split <;> rfl

theorem emit_emit (k : Core) (a b : Bytes) : (k.emit a).emit b = k.emit (a ++ b) := by
  cases h : k.code <;> simp [emit, h, put, hold]

theorem emit_clear (k : Core) (a : Bytes) :
    { k with matchBuf := [] }.emit a = { k.emit a with matchBuf := [] } := by
  unfold emit; split <;> rfl

end Core

/-! ### The projection of each piece -/

theorem core_pushBuilder (st : Scan) (c : Byte) : (st.pushBuilder c).core = st.core.put [c] := rfl

theorem core_pushBuffer (st : Scan) (c : Byte) : (st.pushBuffer c).core = st.core.hold [c] := rfl

theorem core_noteNewline (st : Scan) (l : Nat) : (st.noteNewline l).core = st.core := rfl

theorem core_strPush (st : Scan) (data : Bytes) :
    Scan.core { st with builder := strPush st.builder data } = st.core.put (cstr data) := rfl

theorem core_pushEquals :
    ∀ (n : Nat) (st : Scan), (pushEquals n st).core = st.core.put (List.replicate n eqs)
  | 0, st => by simp [pushEquals]
  | n + 1, st => by
      simp [pushEquals, core_pushEquals n, core_pushBuilder, List.replicate_succ]

theorem core_pushNoted (st : Scan) (c : Byte) : (st.pushNoted c).core = st.core.put [c] := by
  unfold Scan.pushNoted
  by_cases hc : c = nl <;> simp [hc, core_noteNewline, core_pushBuilder]

theorem core_foldl_pushNoted :
    ∀ (t : Bytes) (st : Scan), (t.foldl Scan.pushNoted st).core = st.core.put t
  | [], st => by simp
  | c :: t, st => by
      rw [List.foldl_cons, core_foldl_pushNoted t, core_pushNoted, Core.put_put]
      rfl

/-- `flush_text_buffer` appends the statement that prints the buffer and empties
the buffer. -/
theorem core_flushTextBuffer (st : Scan) : (flushTextBuffer st).core = st.core.flush := by
  by_cases hb : st.buffer = []
  · simp [flushTextBuffer, Core.flush, Scan.core, hb, printStatement]
  · have hlen : st.buffer.length ≠ 0 := by simpa using hb
    have hopen : cstr (ascii "tmg.print([") = ascii "tmg.print(" ++ [lbr] := by decide
    have hclose : cstr (ascii "])\n") = rbr :: ascii ")\n" := by decide
    have hclear : ∀ s : Scan, Scan.core { s with buffer := [] } = { s.core with buffer := [] } :=
      fun _ => rfl
    simp only [flushTextBuffer, if_neg hlen, hclear, core_noteNewline, core_strPush,
      core_pushEquals, core_pushBuilder, core_foldl_pushNoted, Core.put_put, hopen, hclose]
    simp [Core.flush, Scan.core, Core.put, printStatement, hb, longLiteral, closing, closingStem]

theorem core_escapeByte (sep : CString) (st : Scan) (c : Byte) :
    (escapeByte sep st c).core
      = { st.core with escapeNext := false }.emit (Core.escaped sep st.code c) := by
  unfold escapeByte Core.escaped Core.emit
  cases hcode : st.code
  · by_cases hc : c = nl
    · simp [Scan.core, hcode, hc]
    · cases suppressesDelim sep c <;>
        simp [hcode, hc, Scan.core, Scan.pushBuffer, Core.hold, strPushChr]
  · cases suppressesDelim sep c <;>
      simp [core_pushNoted, core_pushBuilder] <;> simp [Scan.core, hcode]

theorem core_toggle (st : Scan) : (toggle st).core = st.core.toggle := by
  unfold toggle Core.toggle
  have h := core_flushTextBuffer { (st.pushBuilder nl).noteNewline st.curLine with code := !st.code }
  exact congrArg (fun k => { k with matchBuf := [] }) h

/-- Bytes that go to the chunk in code and to the text buffer in text are emitted. -/
theorem core_byMode {st put hold : Scan} {bs : Bytes} (hput : put.core = st.core.put bs)
    (hhold : hold.core = st.core.hold bs) :
    (if st.code then put else hold).core = st.core.emit bs := by
  have hmode : st.core.code = st.code := rfl
  unfold Core.emit
  rw [hmode]
  cases st.code
  · exact hhold
  · exact hput

theorem core_pushMatched (st : Scan) (c : Byte) : (pushMatched st c).core = st.core.emit [c] :=
  core_byMode (core_pushNoted st c) (core_pushBuffer st c)

theorem core_pushRest (st : Scan) (c : Byte) : (pushRest st c).core = st.core.emit [c] :=
  core_byMode (core_pushBuilder st c) (core_pushBuffer st c)

/-- Bytes pushed one at a time in the current mode. -/
theorem core_foldl_emit {push : Scan → Byte → Scan}
    (hpush : ∀ st c, (push st c).core = st.core.emit [c]) :
    ∀ (m : Bytes) (st : Scan), (m.foldl push st).core = st.core.emit m
  | [], st => by simp
  | c :: m, st => by
      rw [List.foldl_cons, core_foldl_emit hpush m, hpush, Core.emit_emit]
      rfl

/-- The test the source makes on `match_buf` is that it is a prefix of the
delimiter. -/
theorem match_test_iff (sep : CString) (m : Bytes) :
    (m.length ≤ sep.strlen ∧ strncmp m sep.bytes m.length = 0) ↔ m <+: sep.bytes := by
  constructor
  · rintro ⟨hlen, hcmp⟩
    exact (strncmp_eq_zero_iff sep.noNul hlen).mp hcmp
  · intro hpre
    exact ⟨hpre.length_le, (strncmp_eq_zero_iff sep.noNul hpre.length_le).mpr hpre⟩

theorem core_matchByte (sep : CString) (st : Scan) (c : Byte) :
    (matchByte sep st c).core
      = if st.matchBuf ++ [c] = sep.bytes then st.core.toggle
        else if st.matchBuf ++ [c] <+: sep.bytes then
          { st.core with matchBuf := st.matchBuf ++ [c] }
        else { st.core with matchBuf := [] }.emit (st.matchBuf ++ [c]) := by
  unfold matchByte
  by_cases hpre : st.matchBuf ++ [c] <+: sep.bytes
  · have htest := (match_test_iff sep (strPushChr st.matchBuf c)).mpr hpre
    by_cases hall : st.matchBuf ++ [c] = sep.bytes
    · have hlen : (strPushChr st.matchBuf c).length = sep.strlen := by
        rw [strPushChr, hall, CString.strlen]
      simp only [htest, and_self, if_true]
      simp only [hlen, hall, if_true, core_toggle]
      rfl
    · have hlen : (strPushChr st.matchBuf c).length ≠ sep.strlen :=
        fun h => hall (hpre.eq_of_length h)
      simp only [htest, hlen, hall, hpre, and_self, if_true, if_false]
      rfl
  · have htest : ¬ _ := (match_test_iff sep (strPushChr st.matchBuf c)).not.mpr hpre
    have hall : st.matchBuf ++ [c] ≠ sep.bytes := fun h => hpre (h ▸ List.prefix_rfl)
    simp only [htest, hall, hpre, if_false, Core.emit_clear]
    have h := core_foldl_emit core_pushMatched (st.matchBuf ++ [c])
      { st with matchBuf := st.matchBuf ++ [c] }
    have hclear : ({ st.core with matchBuf := st.matchBuf ++ [c] } : Core).emit
          (st.matchBuf ++ [c])
        = { st.core.emit (st.matchBuf ++ [c]) with matchBuf := st.matchBuf ++ [c] } := by
      unfold Core.emit; split <;> rfl
    exact congrArg (fun k => { k with matchBuf := [] }) (h.trans hclear)

/-- The scanner's step, on the variables the chunk depends on. -/
theorem core_scanByte (sep : CString) (st : Scan) (c : Byte) :
    (scanByte sep st c).core = st.core.step sep c := by
  -- the line counter is the only thing the first test touches
  have key : ∀ s : Scan, (if s.escapeNext then escapeByte sep s c
      else if c = bsl then { s with escapeNext := true } else matchByte sep s c).core
        = s.core.step sep c := by
    intro s
    unfold Core.step
    cases hesc : s.escapeNext
    · have hesc' : s.core.escapeNext = false := hesc
      by_cases hb : c = bsl
      · simp only [hesc', hb, if_true, Bool.false_eq_true, if_false]
        rfl
      · simp only [hesc', hb, if_false, Bool.false_eq_true, core_matchByte]
        rfl
    · have hesc' : s.core.escapeNext = true := hesc
      simp only [hesc', if_true, core_escapeByte]
      rfl
  unfold scanByte
  by_cases hnl : c = nl
  · rw [if_pos hnl]
    exact key { st with curLine := st.curLine + 1 }
  · rw [if_neg hnl]
    exact key st

theorem core_scan (sep : CString) (tpl : Bytes) :
    (scan sep tpl).core = tpl.foldl (Core.step sep) Scan.init.core :=
  (List.foldl_hom Scan.core fun st c => (core_scanByte sep st c).symm).symm

theorem core_finish (st : Scan) : (finish st).core = st.core.finish := by
  -- the pending backslash
  have hesc : (if st.escapeNext then (if st.code then st.pushBuilder bsl else st.pushBuffer bsl)
        else st).core = st.core.emit (if st.core.escapeNext then [bsl] else []) := by
    have hif : (if st.code then st.pushBuilder bsl else st.pushBuffer bsl) = pushRest st bsl := rfl
    rw [hif]
    cases h : st.escapeNext
    · have h' : st.core.escapeNext = false := h
      simp [h']
    · have h' : st.core.escapeNext = true := h
      simp [h', core_pushRest]
  -- the pending match
  have hrest : ∀ s : Scan, (if s.matchBuf.length > 0 then
        { s.matchBuf.foldl pushRest s with matchBuf := [] } else s).core
      = { s.core.emit s.core.matchBuf with matchBuf := [] } := by
    intro s
    by_cases hm : s.matchBuf = []
    · simp [hm, Scan.core]
    · have hlen : s.matchBuf.length > 0 := List.length_pos_iff.mpr hm
      rw [if_pos hlen]
      exact congrArg (fun k => { k with matchBuf := [] })
        (core_foldl_emit core_pushRest s.matchBuf s)
  unfold finish Core.finish
  rw [core_flushTextBuffer, hrest, hesc]

end Tmg
