/-
# `Tmg.Provenance` — where the bytes of the chunk come from

The scanner once more, on cells instead of bytes: a `Cell` is a byte of the chunk
that `tmg_expand` generated, or a byte of the template with its position.  The
traced scanner moves cells where the scanner moves bytes; forgetting the positions
gives the scanner back (`erase_trace`, `erase_finish`), so what is proved here about
positions is about the bytes of the chunk.

Two lists of positions describe a state:

| | |
| :-- | :-- |
| `emitted` | the template's positions in the chunk and the text buffer, in chunk order |
| `held` | those still in `match_buf` |

`Moves` says once what a byte does to them, and `left_out` is the account: a position
that was read is emitted, held, a pending backslash, or left out for one of three
reasons: it belongs to a recognised delimiter, it is a backslash before the first
byte of the delimiter, it belongs to a backslash-newline pair of the text.
-/
import Tmg.Steps
import Mathlib.Data.List.Sort

namespace Tmg

open Lib

/-- A byte of the chunk: a generated one, or the template's byte at a position. -/
inductive Cell where
  | gen (b : Byte)
  | src (i : Nat) (b : Byte)
deriving DecidableEq, Repr

namespace Cell

/-- The byte itself. -/
def byte : Cell → Byte
  | gen b => b
  | src _ b => b

/-- The position of a template byte. -/
def pos? : Cell → Option Nat
  | gen _ => none
  | src i _ => some i

end Cell

/-- The bytes of a list of cells. -/
def bytesOf (cs : List Cell) : Bytes := cs.map Cell.byte

/-- The template positions of a list of cells. -/
def posOf (cs : List Cell) : List Nat := cs.filterMap Cell.pos?

/-- Generated cells. -/
def gens (bs : Bytes) : List Cell := bs.map Cell.gen

@[simp] theorem bytesOf_nil : bytesOf [] = [] := rfl

@[simp] theorem bytesOf_append (a b : List Cell) : bytesOf (a ++ b) = bytesOf a ++ bytesOf b :=
  List.map_append

@[simp] theorem bytesOf_src (i : Nat) (b : Byte) : bytesOf [.src i b] = [b] := rfl

@[simp] theorem bytesOf_gens (bs : Bytes) : bytesOf (gens bs) = bs := by
  simp [bytesOf, gens, Function.comp_def, Cell.byte]

@[simp] theorem bytesOf_eq_nil {cs : List Cell} : bytesOf cs = [] ↔ cs = [] := by simp [bytesOf]

@[simp] theorem posOf_nil : posOf [] = [] := rfl

@[simp] theorem posOf_append (a b : List Cell) : posOf (a ++ b) = posOf a ++ posOf b :=
  List.filterMap_append

@[simp] theorem posOf_src (i : Nat) (b : Byte) : posOf [.src i b] = [i] := rfl

@[simp] theorem posOf_gens (bs : Bytes) : posOf (gens bs) = [] := by
  simp [posOf, gens, Function.comp_def, Cell.pos?]

/-- A position is among those of `cs` where `cs` splits at a cell of that position. -/
theorem mem_posOf_iff {cs : List Cell} {i : Nat} :
    i ∈ posOf cs ↔ ∃ pre b post, cs = pre ++ Cell.src i b :: post := by
  constructor
  · intro h
    obtain ⟨x, hx, hi⟩ := List.mem_filterMap.mp h
    obtain ⟨pre, post, hsplit⟩ := List.append_of_mem hx
    cases x with
    | gen b => exact absurd hi (by simp [Cell.pos?])
    | src j b =>
        obtain rfl : j = i := Option.some.inj hi
        exact ⟨pre, b, post, hsplit⟩
  · rintro ⟨pre, b, post, rfl⟩
    simp [posOf, Cell.pos?]

/-! ## The traced scanner -/

/-- The scanner's state, in cells, and the number of bytes read. -/
structure Traced where
  matchBuf : List Cell
  builder : List Cell
  buffer : List Cell
  pos : Nat
  code : Bool
  escapeNext : Bool
deriving DecidableEq, Repr

namespace Traced

def init : Traced :=
  { matchBuf := [], builder := [], buffer := [], pos := 0, code := false, escapeNext := false }

/-- Cells passed on in the current mode. -/
def emit (t : Traced) (cs : List Cell) : Traced :=
  if t.code then { t with builder := t.builder ++ cs } else { t with buffer := t.buffer ++ cs }

/-- What an escaped byte `c` at position `i` stands for; its backslash is at `i - 1`. -/
def escaped (sep : CString) (code : Bool) (i : Nat) (c : Byte) : List Cell :=
  if code = false ∧ c = nl then []
  else if suppressesDelim sep c then [.src i c] else [.src (i - 1) bsl, .src i c]

/-- The statement that prints the text `cs`. -/
def printStatement (cs : List Cell) : List Cell :=
  if cs = [] then []
  else
    let n := maxEquals (bytesOf cs)
    gens (ascii "tmg.print(" ++ lbr :: (List.replicate n eqs ++ [lbr])) ++ cs
      ++ gens (closing rbr eqs n ++ ascii ")\n")

/-- `flush_text_buffer` -/
def flush (t : Traced) : Traced :=
  { t with builder := t.builder ++ printStatement t.buffer, buffer := [] }

/-- A complete delimiter. -/
def toggle (t : Traced) : Traced :=
  { ({ t with builder := t.builder ++ gens [nl], code := !t.code }).flush with matchBuf := [] }

/-- `c` completes the delimiter. -/
def Completes (sep : CString) (t : Traced) (c : Byte) : Prop :=
  t.escapeNext = false ∧ c ≠ bsl ∧ bytesOf t.matchBuf ++ [c] = sep.bytes

/-- One turn of the loop. -/
def step (sep : CString) (t : Traced) (c : Byte) : Traced :=
  let u := { t with pos := t.pos + 1 }
  if t.escapeNext then { u with escapeNext := false }.emit (escaped sep t.code t.pos c)
  else if c = bsl then { u with escapeNext := true }
  else if bytesOf t.matchBuf ++ [c] = sep.bytes then u.toggle
  else if bytesOf t.matchBuf ++ [c] <+: sep.bytes then
    { u with matchBuf := t.matchBuf ++ [.src t.pos c] }
  else { u with matchBuf := [] }.emit (t.matchBuf ++ [Cell.src t.pos c])

/-- What follows the loop. -/
def finish (t : Traced) : Traced :=
  let t := t.emit (if t.escapeNext then [.src (t.pos - 1) bsl] else [])
  { t.emit t.matchBuf with matchBuf := [] }.flush

/-- The positions in the chunk and the text buffer, in the order of the chunk. -/
def emitted (t : Traced) : List Nat := posOf (t.builder ++ t.buffer)

/-- The positions in `match_buf`. -/
def held (t : Traced) : List Nat := posOf t.matchBuf

/-- The scanner's state under a traced one. -/
def erase (t : Traced) : Core :=
  { matchBuf := bytesOf t.matchBuf, builder := bytesOf t.builder, buffer := bytesOf t.buffer,
    code := t.code, escapeNext := t.escapeNext }

end Traced

/-- The traced scanner after the template's bytes `tpl`. -/
def trace (sep : CString) (tpl : Bytes) : Traced := tpl.foldl (Traced.step sep) Traced.init

/-! ## Erasure -/

namespace Traced

@[simp] theorem emit_matchBuf (t : Traced) (cs : List Cell) : (t.emit cs).matchBuf = t.matchBuf := by
  unfold emit; split <;> rfl

@[simp] theorem emit_pos (t : Traced) (cs : List Cell) : (t.emit cs).pos = t.pos := by
  unfold emit; split <;> rfl

@[simp] theorem emit_code (t : Traced) (cs : List Cell) : (t.emit cs).code = t.code := by
  unfold emit; split <;> rfl

@[simp] theorem emit_escapeNext (t : Traced) (cs : List Cell) :
    (t.emit cs).escapeNext = t.escapeNext := by
  unfold emit; split <;> rfl

theorem erase_emit (t : Traced) (cs : List Cell) : (t.emit cs).erase = t.erase.emit (bytesOf cs) := by
  cases hcode : t.code <;> simp [emit, Core.emit, erase, hcode, Core.put, Core.hold]

theorem bytesOf_escaped (sep : CString) (code : Bool) (i : Nat) (c : Byte) :
    bytesOf (escaped sep code i c) = Core.escaped sep code c := by
  unfold escaped Core.escaped
  split
  · rfl
  · split <;> rfl

theorem bytesOf_printStatement (cs : List Cell) :
    bytesOf (printStatement cs) = Tmg.printStatement (bytesOf cs) := by
  by_cases hcs : cs = []
  · simp [printStatement, Tmg.printStatement, hcs]
  · simp [printStatement, Tmg.printStatement, hcs, longLiteral]

theorem erase_flush (t : Traced) : t.flush.erase = t.erase.flush := by
  simp [flush, Core.flush, erase, Core.put, bytesOf_printStatement]

theorem erase_toggle (t : Traced) : t.toggle.erase = t.erase.toggle := by
  simp [toggle, flush, Core.toggle, Core.flush, erase, Core.put, bytesOf_printStatement]

theorem erase_step (sep : CString) (t : Traced) (c : Byte) :
    (t.step sep c).erase = t.erase.step sep c := by
  unfold step Core.step
  have hesc : t.erase.escapeNext = t.escapeNext := rfl
  have hmatch : t.erase.matchBuf = bytesOf t.matchBuf := rfl
  simp only [hesc, hmatch]
  split
  · rw [erase_emit, bytesOf_escaped]
    rfl
  · split
    · rfl
    · split
      · rw [erase_toggle]
        rfl
      · split
        · simp [erase]
        · rw [erase_emit]
          simp [erase]

theorem erase_finish (t : Traced) : t.finish.erase = t.erase.finish := by
  have hclear : ∀ u : Traced, erase { u with matchBuf := [] } = { u.erase with matchBuf := [] } :=
    fun _ => rfl
  have hbsl : bytesOf (if t.escapeNext then [.src (t.pos - 1) bsl] else [])
      = if t.erase.escapeNext then [bsl] else [] := by
    cases h : t.escapeNext <;> simp [erase, h]
  simp only [finish, Core.finish, erase_flush, hclear, erase_emit, hbsl, Core.emit_matchBuf,
    emit_matchBuf]
  rfl

end Traced

/-- The traced scanner is the scanner, byte for byte. -/
theorem erase_trace (sep : CString) (tpl : Bytes) : (trace sep tpl).erase = (scan sep tpl).core := by
  rw [core_scan, trace]
  exact (List.foldl_hom Traced.erase fun t c => (Traced.erase_step sep t c).symm).symm

theorem trace_concat (sep : CString) (p : Bytes) (c : Byte) :
    trace sep (p ++ [c]) = (trace sep p).step sep c := by
  simp [trace, List.foldl_append]

/-- The cells of the finished chunk. -/
def chunkCells (sep : CString) (tpl : Bytes) : List Cell := (trace sep tpl).finish.builder

/-- The cells are the bytes of the chunk. -/
theorem bytesOf_chunkCells (sep : CString) (tpl : Bytes) :
    bytesOf (chunkCells sep tpl) = chunk sep tpl := by
  have h := congrArg Core.builder (Traced.erase_finish (trace sep tpl))
  rw [erase_trace, ← core_finish] at h
  exact h

/-! ## Template cells carry the template's bytes -/

namespace Traced

theorem matchBuf_step (sep : CString) (t : Traced) (c : Byte) :
    (t.step sep c).matchBuf = t.matchBuf ∨ (t.step sep c).matchBuf = [] ∨
      (t.step sep c).matchBuf = t.matchBuf ++ [.src t.pos c] := by
  unfold step
  simp only
  split
  · exact Or.inl (emit_matchBuf _ _)
  · split
    · exact Or.inl rfl
    · split
      · exact Or.inr (Or.inl rfl)
      · split
        · exact Or.inr (Or.inr rfl)
        · exact Or.inr (Or.inl (emit_matchBuf _ _))

/-- All cells of a state. -/
def cells (t : Traced) : List Cell := t.builder ++ (t.buffer ++ t.matchBuf)

theorem mem_cells_emit {t : Traced} {cs : List Cell} {x : Cell} (h : x ∈ (t.emit cs).cells) :
    x ∈ t.cells ∨ x ∈ cs := by
  cases hcode : t.code <;> simp [emit, hcode, cells] at h ⊢ <;> tauto

theorem mem_cells_flush {t : Traced} {x : Cell} (h : x ∈ t.flush.cells) :
    x ∈ t.cells ∨ ∃ b, x = .gen b := by
  have hprint : x ∈ printStatement t.buffer → x ∈ t.buffer ∨ ∃ b, x = .gen b := by
    intro h
    unfold printStatement at h
    split at h
    · exact absurd h List.not_mem_nil
    · simp only [gens, List.mem_append, List.mem_map] at h
      rcases h with (⟨b, -, rfl⟩ | h) | ⟨b, -, rfl⟩
      · exact Or.inr ⟨b, rfl⟩
      · exact Or.inl h
      · exact Or.inr ⟨b, rfl⟩
  simp only [flush, cells, List.mem_append, List.not_mem_nil, false_or] at h ⊢
  tauto

/-- A step's cells are old ones, generated ones, the byte read, or the backslash that
was pending. -/
theorem mem_cells_step {sep : CString} {t : Traced} {c : Byte} {x : Cell}
    (h : x ∈ (t.step sep c).cells) :
    x ∈ t.cells ∨ (∃ b, x = .gen b) ∨ x = .src t.pos c ∨
      (t.escapeNext = true ∧ x = .src (t.pos - 1) bsl) := by
  unfold step at h
  simp only at h
  split at h
  · next hesc =>
      rcases mem_cells_emit h with h | h
      · exact Or.inl h
      · unfold escaped at h
        split at h
        · exact absurd h List.not_mem_nil
        · split at h <;> simp at h <;> tauto
  · split at h
    · exact Or.inl h
    · split at h
      · simp only [toggle, cells, List.mem_append, List.not_mem_nil, or_false] at h
        have hflush : x ∈ (flush { t with builder := t.builder ++ gens [nl] }).cells := by
          simp only [cells, List.mem_append]
          exact h.imp_right Or.inl
        rcases mem_cells_flush hflush with h | h
        · simp only [cells, gens, List.map_cons, List.map_nil, List.mem_append,
            List.mem_singleton] at h ⊢
          rcases h with (h | h) | h
          · exact Or.inl (Or.inl h)
          · exact Or.inr (Or.inl ⟨_, h⟩)
          · exact Or.inl (Or.inr h)
        · exact Or.inr (Or.inl h)
      · split at h
        · simp only [cells, List.mem_append, List.mem_singleton] at h ⊢
          tauto
        · rcases mem_cells_emit h with h | h <;>
            simp only [cells, List.mem_append, List.mem_singleton, List.not_mem_nil, or_false]
              at h ⊢ <;> tauto

/-- The chunk's cells are those of the last state, generated ones, or the backslash
that is still pending. -/
theorem mem_builder_finish {t : Traced} {x : Cell} (h : x ∈ t.finish.builder) :
    x ∈ t.cells ∨ (∃ b, x = .gen b) ∨ (t.escapeNext = true ∧ x = .src (t.pos - 1) bsl) := by
  have hcells : x ∈ t.finish.cells := List.mem_append_left _ h
  rw [finish] at hcells
  rcases mem_cells_flush hcells with h | h
  · have hmatch : ∀ {u : Traced}, x ∈ cells { u with matchBuf := [] } → x ∈ u.cells := by
      intro u h
      simp only [cells, List.mem_append, List.not_mem_nil, or_false] at h ⊢
      tauto
    have hbsl : x ∈ (if t.escapeNext then [.src (t.pos - 1) bsl] else [] : List Cell) →
        t.escapeNext = true ∧ x = .src (t.pos - 1) bsl := by
      split <;> simp_all
    rcases mem_cells_emit (hmatch h) with h | h
    · exact (mem_cells_emit h).imp id fun h => Or.inr (hbsl h)
    · rw [emit_matchBuf] at h
      exact Or.inl (List.mem_append_right _ (List.mem_append_right _ h))
  · exact Or.inr (Or.inl h)

end Traced

/-! ## What a byte moves -/

namespace Traced

variable {sep : CString}

/-- What reading `c` does to the pending backslash, the emitted and the held
positions. -/
inductive Moves (sep : CString) (t : Traced) (c : Byte) : Bool → List Nat → List Nat → Prop
  | escaped : t.escapeNext = true →
      Moves sep t c false (t.emitted ++ posOf (escaped sep t.code t.pos c)) t.held
  | waiting : t.escapeNext = false → c = bsl → Moves sep t c true t.emitted t.held
  | toggled : t.Completes sep c → Moves sep t c false t.emitted []
  | matched : t.escapeNext = false → c ≠ bsl → Moves sep t c false t.emitted (t.held ++ [t.pos])
  | failed : t.escapeNext = false → c ≠ bsl →
      Moves sep t c false (t.emitted ++ (t.held ++ [t.pos])) []

theorem posOf_printStatement (cs : List Cell) : posOf (printStatement cs) = posOf cs := by
  by_cases hcs : cs = [] <;> simp [printStatement, hcs]

theorem emitted_flush (t : Traced) : t.flush.emitted = t.emitted := by
  simp [flush, emitted, posOf_printStatement]

/-- Cells are appended to what is emitted: in code no text is waiting. -/
theorem emitted_emit {t : Traced} (hcode : t.code = true → t.buffer = []) (cs : List Cell) :
    (t.emit cs).emitted = t.emitted ++ posOf cs := by
  cases h : t.code
  · simp [emit, emitted, h]
  · simp [emit, emitted, h, hcode h]

theorem emitted_toggle (t : Traced) : t.toggle.emitted = t.emitted := by
  simp [toggle, flush, emitted, posOf_printStatement]

theorem pos_step (t : Traced) (c : Byte) : (t.step sep c).pos = t.pos + 1 := by
  unfold step
  split
  · exact emit_pos _ _
  · split
    · rfl
    · split
      · rfl
      · split
        · rfl
        · exact emit_pos _ _

@[simp] theorem held_emit (t : Traced) (cs : List Cell) : (t.emit cs).held = t.held := by
  simp [held]

theorem moves {t : Traced} (hcode : t.code = true → t.buffer = []) (c : Byte) :
    Moves sep t c (t.step sep c).escapeNext (t.step sep c).emitted (t.step sep c).held := by
  by_cases hesc : t.escapeNext = true
  · have hstep : t.step sep c = emit { t with pos := t.pos + 1, escapeNext := false }
        (escaped sep t.code t.pos c) := by simp [step, hesc]
    have hem := emitted_emit (t := { t with pos := t.pos + 1, escapeNext := false }) hcode
      (escaped sep t.code t.pos c)
    rw [hstep, emit_escapeNext, held_emit, hem]
    exact Moves.escaped hesc
  have hesc : t.escapeNext = false := by simpa using hesc
  by_cases hb : c = bsl
  · have hstep : t.step sep c = { t with pos := t.pos + 1, escapeNext := true } := by
      simp [step, hesc, hb]
    rw [hstep]
    exact Moves.waiting hesc hb
  by_cases hall : bytesOf t.matchBuf ++ [c] = sep.bytes
  · have hstep : t.step sep c = toggle { t with pos := t.pos + 1 } := by
      simp [step, hesc, hb, hall]
    have hflag : (toggle { t with pos := t.pos + 1 }).escapeNext = false := hesc
    rw [hstep, emitted_toggle, hflag]
    exact Moves.toggled ⟨hesc, hb, hall⟩
  by_cases hpre : bytesOf t.matchBuf ++ [c] <+: sep.bytes
  · have hstep : t.step sep c
        = { t with pos := t.pos + 1, matchBuf := t.matchBuf ++ [Cell.src t.pos c] } := by
      simp [step, hesc, hb, hall, hpre]
    have hheld : (t.step sep c).held = t.held ++ [t.pos] := by simp [hstep, held]
    have hflag : (t.step sep c).escapeNext = false := by simp [hstep, hesc]
    rw [hheld, hflag, hstep]
    exact Moves.matched hesc hb
  · have hstep : t.step sep c = emit { t with pos := t.pos + 1, matchBuf := [] }
        (t.matchBuf ++ [Cell.src t.pos c]) := by simp [step, hesc, hb, hall, hpre]
    have hem := emitted_emit (t := { t with pos := t.pos + 1, matchBuf := [] }) hcode
      (t.matchBuf ++ [Cell.src t.pos c])
    rw [hstep, emit_escapeNext, held_emit, hem, posOf_append, posOf_src, hesc]
    exact Moves.failed hesc hb

end Traced

/-! ## The state after a prefix -/

section

variable (sep : CString) (p : Bytes)

theorem trace_code : (trace sep p).code = (scan sep p).code :=
  congrArg Core.code (erase_trace sep p)

theorem trace_escapeNext : (trace sep p).escapeNext = (scan sep p).escapeNext :=
  congrArg Core.escapeNext (erase_trace sep p)

theorem trace_matchBuf : bytesOf (trace sep p).matchBuf = (scan sep p).matchBuf :=
  congrArg Core.matchBuf (erase_trace sep p)

theorem trace_pos : (trace sep p).pos = p.length := by
  induction p using List.reverseRecOn with
  | nil => rfl
  | append_singleton p c ih => rw [trace_concat, Traced.pos_step, ih]; simp

theorem trace_noText (h : (trace sep p).code = true) : (trace sep p).buffer = [] := by
  have hbytes := (scan_inv sep p).noText ((trace_code sep p).symm.trans h)
  rw [← erase_trace] at hbytes
  exact bytesOf_eq_nil.mp hbytes

/-- Only template bytes are held. -/
theorem trace_matchBuf_src {x : Cell} (h : x ∈ (trace sep p).matchBuf) : ∃ i b, x = .src i b := by
  induction p using List.reverseRecOn with
  | nil => exact absurd h List.not_mem_nil
  | append_singleton p c ih =>
      rw [trace_concat] at h
      rcases Traced.matchBuf_step sep (trace sep p) c with hm | hm | hm <;> rw [hm] at h
      · exact ih h
      · exact absurd h List.not_mem_nil
      · rcases List.mem_append.mp h with h | h
        · exact ih h
        · exact ⟨_, _, List.mem_singleton.mp h⟩

/-- A template cell of the state holds the template's byte at its position. -/
theorem trace_faithful {i : Nat} {b : Byte} (h : Cell.src i b ∈ (trace sep p).cells) :
    p[i]? = some b := by
  induction p using List.reverseRecOn with
  | nil => exact absurd h (by simp [trace, Traced.init, Traced.cells])
  | append_singleton p c ih =>
      rw [trace_concat] at h
      rcases Traced.mem_cells_step h with h | ⟨_, h⟩ | h | ⟨hesc, h⟩
      · have hlt := (List.getElem?_eq_some_iff.mp (ih h)).1
        rw [List.getElem?_append_left hlt, ih h]
      · exact Cell.noConfusion h
      · obtain ⟨rfl, rfl⟩ := Cell.src.inj h
        simp [trace_pos]
      · obtain ⟨rfl, rfl⟩ := Cell.src.inj h
        obtain ⟨q, rfl, -⟩ := pending ((trace_escapeNext sep p).symm.trans hesc)
        simp [trace_pos]

/-- So does a template cell of the chunk. -/
theorem chunkCells_faithful {i : Nat} {b : Byte} (h : Cell.src i b ∈ chunkCells sep p) :
    p[i]? = some b := by
  rcases Traced.mem_builder_finish h with h | ⟨_, h⟩ | ⟨hesc, h⟩
  · exact trace_faithful sep p h
  · exact Cell.noConfusion h
  · obtain ⟨rfl, rfl⟩ := Cell.src.inj h
    obtain ⟨q, rfl, -⟩ := pending ((trace_escapeNext sep p).symm.trans hesc)
    simp [trace_pos]

/-- What the next byte moves. -/
theorem moves_concat (c : Byte) :
    Traced.Moves sep (trace sep p) c (trace sep (p ++ [c])).escapeNext
      (trace sep (p ++ [c])).emitted (trace sep (p ++ [c])).held := by
  rw [trace_concat]
  exact Traced.moves (trace_noText sep p) c

/-- At end of file: the pending backslash, then what is held. -/
theorem posOf_chunkCells :
    posOf (chunkCells sep p) = (trace sep p).emitted
      ++ ((if (trace sep p).escapeNext then [p.length - 1] else []) ++ (trace sep p).held) := by
  have hbuf : (trace sep p).finish.buffer = [] := rfl
  have hemitted : posOf (chunkCells sep p) = (trace sep p).finish.emitted := by
    simp [chunkCells, Traced.emitted, hbuf]
  generalize hbs : (if (trace sep p).escapeNext then [Cell.src ((trace sep p).pos - 1) bsl] else [])
    = bs
  have hpos : posOf bs = if (trace sep p).escapeNext then [p.length - 1] else [] := by
    rw [← hbs, trace_pos]
    split <;> rfl
  have hcode : ((trace sep p).emit bs).code = true → ((trace sep p).emit bs).buffer = [] := by
    intro h
    rw [Traced.emit_code] at h
    simp [Traced.emit, h, trace_noText sep p h]
  have hclear : ∀ u : Traced, Traced.emitted { u with matchBuf := [] } = u.emitted := fun _ => rfl
  rw [hemitted, Traced.finish, hbs, Traced.emitted_flush, hclear, Traced.emitted_emit hcode,
    Traced.emitted_emit (trace_noText sep p), Traced.emit_matchBuf, hpos, List.append_assoc]
  rfl

end

/-! ## The account -/

/-- Position `i` belongs to a delimiter that the scanner recognised. -/
def InDelimiter (sep : CString) (tpl : Bytes) (i : Nat) : Prop :=
  ∃ p c r, tpl = p ++ c :: r ∧ (trace sep p).Completes sep c ∧
    (i ∈ (trace sep p).held ∨ i = p.length)

/-- Position `i` is a backslash that is left out, as the byte after it is the first
one of the delimiter. -/
def Suppressed (sep : CString) (tpl : Bytes) (i : Nat) : Prop :=
  ∃ p c r, tpl = p ++ bsl :: c :: r ∧ (scan sep p).escapeNext = false ∧ i = p.length ∧
    ¬ ((scan sep p).code = false ∧ c = nl) ∧ suppressesDelim sep c = true

/-- Position `i` belongs to a backslash-newline pair of the text. -/
def InJoin (sep : CString) (tpl : Bytes) (i : Nat) : Prop :=
  ∃ p r, tpl = p ++ bsl :: nl :: r ∧ (scan sep p).escapeNext = false ∧ (scan sep p).code = false ∧
    (i = p.length ∨ i = p.length + 1)

section

variable {sep : CString} {p : Bytes} {i : Nat}

theorem InDelimiter.append (h : InDelimiter sep p i) (s : Bytes) : InDelimiter sep (p ++ s) i := by
  obtain ⟨q, c, r, rfl, hc, hi⟩ := h
  exact ⟨q, c, r ++ s, by simp, hc, hi⟩

theorem Suppressed.append (h : Suppressed sep p i) (s : Bytes) : Suppressed sep (p ++ s) i := by
  obtain ⟨q, c, r, rfl, hesc, hi, hmode, hsup⟩ := h
  exact ⟨q, c, r ++ s, by simp, hesc, hi, hmode, hsup⟩

theorem InJoin.append (h : InJoin sep p i) (s : Bytes) : InJoin sep (p ++ s) i := by
  obtain ⟨q, r, rfl, hesc, hcode, hi⟩ := h
  exact ⟨q, r ++ s, by simp, hesc, hcode, hi⟩

/-- Where a position that was read may be. -/
inductive Account (sep : CString) (p : Bytes) (i : Nat) : Prop
  | emitted : i ∈ (trace sep p).emitted → Account sep p i
  | held : i ∈ (trace sep p).held → Account sep p i
  | waiting : (trace sep p).escapeNext = true → i + 1 = p.length → Account sep p i
  | delimiter : InDelimiter sep p i → Account sep p i
  | suppressed : Suppressed sep p i → Account sep p i
  | join : InJoin sep p i → Account sep p i

/-- What becomes of a byte that stands after a pending backslash, and of the
backslash. -/
theorem account_escaped {c : Byte} (hesc : (trace sep p).escapeNext = true)
    (hem : (trace sep (p ++ [c])).emitted
      = (trace sep p).emitted ++ posOf (Traced.escaped sep (trace sep p).code (trace sep p).pos c))
    (hi : i = p.length ∨ i + 1 = p.length) : Account sep (p ++ [c]) i := by
  obtain ⟨q, rfl, hq, hcode, -⟩ := pending ((trace_escapeNext sep p).symm.trans hesc)
  have hlen : (q ++ [bsl]).length = q.length + 1 := by simp
  have htpl : q ++ [bsl] ++ [c] = q ++ bsl :: c :: [] := by simp
  rw [trace_code, trace_pos, Traced.escaped, ← hcode] at hem
  by_cases hjoin : (scan sep q).code = false ∧ c = nl
  · refine Account.join ⟨q, [], by rw [htpl, hjoin.2], hq, hjoin.1, ?_⟩
    omega
  · rw [if_neg hjoin] at hem
    by_cases hsup : suppressesDelim sep c = true
    · rcases hi with hi | hi
      · refine Account.emitted ?_
        rw [hem, if_pos hsup]
        simp [hi]
      · exact Account.suppressed ⟨q, c, [], htpl, hq, by omega, hjoin, hsup⟩
    · refine Account.emitted ?_
      rw [hem, if_neg hsup]
      simp [posOf, Cell.pos?]
      omega

/-- The reasons stay what they are when a byte is read; only emitted, held and pending move. -/
theorem Account.concat {c : Byte} (h : Account sep p i)
    (hem : i ∈ (trace sep p).emitted → Account sep (p ++ [c]) i)
    (hheld : i ∈ (trace sep p).held → Account sep (p ++ [c]) i)
    (hwait : (trace sep p).escapeNext = true → i + 1 = p.length → Account sep (p ++ [c]) i) :
    Account sep (p ++ [c]) i := by
  cases h with
  | emitted h => exact hem h
  | held h => exact hheld h
  | waiting h h' => exact hwait h h'
  | delimiter h => exact .delimiter (h.append _)
  | suppressed h => exact .suppressed (h.append _)
  | join h => exact .join (h.append _)

/-- Without a pending backslash nothing is waiting. -/
theorem Account.concat_of_settled {c : Byte} (h : Account sep p i)
    (hesc : (trace sep p).escapeNext = false)
    (hem : i ∈ (trace sep p).emitted → Account sep (p ++ [c]) i)
    (hheld : i ∈ (trace sep p).held → Account sep (p ++ [c]) i) : Account sep (p ++ [c]) i :=
  h.concat hem hheld fun hwait => absurd (hesc.symm.trans hwait) Bool.false_ne_true

/-- **Every position read is emitted, held, pending, or left out for one of the three
reasons.** -/
theorem account (sep : CString) (p : Bytes) : ∀ i < p.length, Account sep p i := by
  induction p using List.reverseRecOn with
  | nil => intro i hi; exact absurd hi (Nat.not_lt_zero i)
  | append_singleton p c ih =>
      intro i hi
      have hi : i < p.length ∨ i = p.length := by simp at hi; omega
      have hmoves := moves_concat sep p c
      generalize hf : (trace sep (p ++ [c])).escapeNext = f at hmoves
      generalize hem : (trace sep (p ++ [c])).emitted = em at hmoves
      generalize hhe : (trace sep (p ++ [c])).held = he at hmoves
      have hpos := trace_pos sep p
      cases hmoves with
      | escaped hesc =>
          rcases hi with hi | hi
          · refine (ih i hi).concat (fun h => .emitted ?_) (fun h => .held (hhe ▸ h))
              (fun _ h => account_escaped hesc hem (Or.inr h))
            rw [hem]
            exact List.mem_append_left _ h
          · exact account_escaped hesc hem (Or.inl hi)
      | waiting hesc hb =>
          rcases hi with hi | hi
          · exact (ih i hi).concat_of_settled hesc (fun h => .emitted (hem ▸ h))
              fun h => .held (hhe ▸ h)
          · exact .waiting hf (by simp [hi])
      | toggled hc =>
          have hdelim : i ∈ (trace sep p).held ∨ i = p.length → Account sep (p ++ [c]) i :=
            fun h => .delimiter ⟨p, c, [], rfl, hc, h⟩
          rcases hi with hi | hi
          · exact (ih i hi).concat_of_settled hc.1 (fun h => .emitted (hem ▸ h))
              fun h => hdelim (Or.inl h)
          · exact hdelim (Or.inr hi)
      | matched hesc hb =>
          rcases hi with hi | hi
          · refine (ih i hi).concat_of_settled hesc (fun h => .emitted (hem ▸ h)) (fun h => .held ?_)
            rw [hhe]
            exact List.mem_append_left _ h
          · refine .held ?_
            rw [hhe]
            simp [hi, hpos]
      | failed hesc hb =>
          have hin : i ∈ (trace sep p).emitted ∨ i ∈ (trace sep p).held ∨ i = p.length →
              Account sep (p ++ [c]) i := by
            intro h
            refine .emitted ?_
            rw [hem]
            simpa [hpos] using h
          rcases hi with hi | hi
          · exact (ih i hi).concat_of_settled hesc (fun h => hin (Or.inl h))
              fun h => hin (Or.inr (Or.inl h))
          · exact hin (Or.inr (Or.inr hi))

/-- The same for the finished chunk. -/
theorem left_out {tpl : Bytes} (hi : i < tpl.length) (hout : i ∉ posOf (chunkCells sep tpl)) :
    InDelimiter sep tpl i ∨ Suppressed sep tpl i ∨ InJoin sep tpl i := by
  rw [posOf_chunkCells] at hout
  simp only [List.mem_append, not_or] at hout
  cases account sep tpl i hi with
  | emitted h => exact absurd h hout.1
  | held h => exact absurd h hout.2.2
  | waiting hesc h =>
      rw [if_pos hesc] at hout
      exact absurd (List.mem_singleton.mpr (by omega)) hout.2.1
  | delimiter h => exact Or.inl h
  | suppressed h => exact Or.inr (Or.inl h)
  | join h => exact Or.inr (Or.inr h)

end

end Tmg
