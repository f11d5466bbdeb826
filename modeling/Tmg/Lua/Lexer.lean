/-
# `Tmg.Lua.Lexer` — `lex_scan`, the tokens with their values

The scanner of LuaJIT, function by function.  Where it stands is what is left of the input, the
current byte first, and the line (`LexState`).

| | reads |
| :-- | :-- |
| `nextLine`, `skipEol` | `lex_newline` |
| `numberText` | `lex_number`; which texts are numbers is `lj_strscan_scan`'s answer, a parameter |
| `skipEqs`, `skipeq` | `lex_skipeq` |
| `longLoop`, `longstring` | `lex_longstring`, strings and comments |
| `stringLoop` | `lex_string`, with the escapes |
| `scan` | `lex_scan` |

`tokens` is what the parser is given, one token after the other up to the end of the input.

Each function goes on from what it was given to a later place, and counts the lines between
(`Reads`): where every carriage return stands before a newline, these are the newlines.  The
recursion of `scan` and `tokens` ends because the place is a later one.
-/
import Tmg.LongString
import Tmg.Lua.Token
import Tmg.Lib.Outcome

namespace Tmg.Lua

open Lib

/-! ## States, errors and tokens -/

/-- The errors of the lexer. -/
inductive LexMsg where
  | xlines
  | xnumber
  | xlstr
  | xlcom
  | xstr
  | xesc
  | xldelim
  | xsymbol
deriving DecidableEq, Repr

/-- `lj_lex_error`: what is wrong, and the line at which it is reported. -/
structure LexError where
  msg : LexMsg
  line : Nat
deriving DecidableEq, Repr

/-- Where the lexer stands: the input from the current byte on, and the line. -/
structure LexState where
  input : Bytes
  line : Nat
deriving DecidableEq, Repr

/-- The operators of several bytes. -/
inductive LexOp where
  | concat
  | dots
  | eq
  | ge
  | le
  | ne
  | nav
  | coal
  | shl
  | shr
  | sar
  | and_
  | or_
  | ne_
  | arrow
  | label
deriving DecidableEq, Repr

/-- A token with its value. -/
inductive LexToken where
  | eof
  | name (s : Bytes)
  | reserved (s : Bytes)
  | number (s : Bytes)
  | string (s : Bytes)
  | op (o : LexOp)
  | char (c : Byte)
deriving DecidableEq, Repr

/-- `LJ_MAX_LINE` -/
def maxLine : Nat := 0x7fffff00

/-- `lex_newline`, as far as the line goes; the input goes on with `skipEol`. -/
def nextLine (line : Nat) : Except LexError Nat :=
  if maxLine ≤ line + 1 then .error ⟨.xlines, line + 1⟩ else .ok (line + 1)

/-! ## Numbers -/

/-- The loop of `lex_number` behind the byte `c`, `xp` being the letter of the exponent: what is
saved, and what follows. -/
def numberLoop (xp c : Byte) : Bytes → Bytes × Bytes
  | [] => ([], [])
  | d :: s =>
      if isIdent d ∨ d = 46 ∨ (d = 45 ∨ d = 43) ∧ c ||| 32 = xp then
        if d = 95 then numberLoop xp c s else Prod.map (d :: ·) id (numberLoop xp d s)
      else ([], d :: s)

/-- `lex_number`, as far as the text of the number. -/
def numberText (s : Bytes) : Bytes × Bytes :=
  if s.head? = some 48 then
    let t := s.tail.dropWhile (· = 95)
    let xp := if t.headD 0 ||| 32 = 120 then 112 else 101
    Prod.map (48 :: ·) id (numberLoop xp (t.headD 0) t)
  else numberLoop 101 (s.headD 0) s

/-! ## Long strings -/

/-- The loop of `lex_skipeq` behind the bracket: how many `=` it skips, and what follows. -/
def skipEqs (count : Nat) : Bytes → Nat × Bytes
  | [] => (count, [])
  | c :: s =>
      if c = eqs ∧ count < 0x20000000 then skipEqs (count + 1) s else (count, c :: s)

/-- `lex_skipeq` behind the bracket `b`. -/
def skipeq (b : Byte) (s : Bytes) : Int :=
  if (skipEqs 0 s).2.head? = some b then (skipEqs 0 s).1 else -(skipEqs 0 s).1 - 1

/-- What `lex_skipeq` saves. -/
def savedEqs (b : Byte) (s : Bytes) : Bytes := b :: List.replicate (skipEqs 0 s).1 eqs

theorem length_skipEqs_le (count : Nat) (s : Bytes) : (skipEqs count s).2.length ≤ s.length := by
  induction s generalizing count with
  | nil => exact Nat.le_refl _
  | cons c s ih =>
      rw [skipEqs]
      split
      · exact (ih _).trans (Nat.le_succ _)
      · exact Nat.le_refl _

theorem length_skipEol_lt {c : Byte} (hc : isEol c = true) (s : Bytes) :
    (skipEol (c :: s)).length < (c :: s).length := by
  have hc' : Tmg.isEol c = true := hc
  cases s with
  | nil => simp [skipEol, hc']
  | cons d s =>
      rw [skipEol, if_pos hc']
      split
      · exact Nat.lt_succ_of_lt (Nat.lt_succ_self _)
      · exact Nat.lt_succ_self _

/-- Where the head is no end of a line, nothing is skipped. -/
theorem skipEol_eq_self {s : Bytes} (h : s.head?.any isEol = false) : skipEol s = s := by
  match s, h with
  | [], _ => rfl
  | [c], h =>
      have hc : Tmg.isEol c = false := h
      simp [skipEol, hc]
  | c :: d :: s, h =>
      have hc : Tmg.isEol c = false := h
      simp [skipEol, hc]

theorem length_skipEol_le (s : Bytes) : (skipEol s).length ≤ s.length := by
  match s with
  | [] => exact Nat.le_refl _
  | c :: s =>
      cases hc : isEol c with
      | true => exact (length_skipEol_lt hc s).le
      | false => rw [skipEol_eq_self (by simpa using hc)]

/-- The loop of `lex_longstring`, `sb` being what was saved so far; `tv` says that it is a string
and not a comment. -/
def longLoop (tv : Bool) (sep : Nat) (sb : Bytes) (line : Nat) :
    Bytes → Except LexError (Bytes × LexState)
  | [] => .error ⟨if tv then .xlstr else .xlcom, line⟩
  | c :: s =>
      if c = rbr then
        if skipeq rbr s = sep then
          .ok (sb ++ savedEqs rbr s ++ [rbr], ⟨(skipEqs 0 s).2.tail, line⟩)
        else longLoop tv sep (sb ++ savedEqs rbr s) line (skipEqs 0 s).2
      else if isEol c then
        nextLine line >>= fun line =>
          longLoop tv sep (if tv then sb ++ [nl] else []) line (skipEol (c :: s))
      else longLoop tv sep (sb ++ [c]) line s
termination_by s => s.length
decreasing_by
  · exact Nat.lt_succ_of_le (length_skipEqs_le 0 s)
  · exact length_skipEol_lt ‹_› s
  · exact Nat.lt_succ_self _

/-- `lex_longstring` at the second bracket, `sb` being what `lex_skipeq` saved: the text between
the brackets. -/
def longstring (tv : Bool) (sep : Nat) (sb : Bytes) (line : Nat) (s : Bytes) :
    Except LexError (Bytes × LexState) :=
  (if s.tail.head?.any isEol then nextLine line else .ok line) >>= fun line =>
    (longLoop tv sep (sb ++ [lbr]) line (skipEol s.tail)).map fun r =>
      ((r.1.drop (2 + sep)).take (r.1.length - 2 * (2 + sep)), r.2)

/-! ## Strings -/

/-- A hexadecimal digit. -/
def xdigit? (c : Byte) : Option Nat :=
  if isDigit c then some (c.toNat &&& 15)
  else if (65 ≤ c && c ≤ 70) || (97 ≤ c && c ≤ 102) then some ((c.toNat &&& 15) + 9)
  else none

/-- The loop of `\u`, at the byte behind the opening brace: the character, and what follows the
closing one. -/
def unicodeLoop (c : Nat) : Bytes → Option (Nat × Bytes)
  | [] => none
  | d :: s =>
      match xdigit? d with
      | none => none
      | some v =>
          if 0x110000 ≤ c * 16 + v then none
          else if s.head? = some 125 then some (c * 16 + v, s.tail)
          else unicodeLoop (c * 16 + v) s

/-- The bytes that are saved for a character. -/
def utf8 (c : Nat) : Option Bytes :=
  let last := (0x80 ||| (c &&& 0x3f)).toUInt8
  let third := (0x80 ||| ((c >>> 6) &&& 0x3f)).toUInt8
  if c < 0x80 then some [c.toUInt8]
  else if c < 0x800 then some [(0xc0 ||| (c >>> 6)).toUInt8, last]
  else if 0x10000 ≤ c then
    some [(0xf0 ||| (c >>> 18)).toUInt8, (0x80 ||| ((c >>> 12) &&& 0x3f)).toUInt8, third, last]
  else if 0xd800 ≤ c ∧ c < 0xe000 then none
  else some [(0xe0 ||| (c >>> 12)).toUInt8, third, last]

/-- The escapes of one byte. -/
def plainEscape? (c : Byte) : Option Byte :=
  if c = 97 then some 7
  else if c = 98 then some 8
  else if c = 102 then some 12
  else if c = 110 then some 10
  else if c = 114 then some 13
  else if c = 116 then some 9
  else if c = 118 then some 11
  else if c = bsl ∨ c = 34 ∨ c = 39 then some c
  else none

/-- The two digits of `\x`. -/
def hexEscape : Bytes → Option (Bytes × Bytes)
  | d :: e :: s => do
      let high ← xdigit? d
      let low ← xdigit? e
      some ([(high * 16 + low).toUInt8], s)
  | _ => none

/-- The character of `\u`, in braces. -/
def unicodeEscape (s : Bytes) : Option (Bytes × Bytes) :=
  if s.head? = some 123 then do
    let (c, s) ← unicodeLoop 0 s.tail
    let bs ← utf8 c
    some (bs, s)
  else none

/-- The rest of a decimal escape whose first digit is `c`. -/
def decimalEscape (c : Nat) (s : Bytes) : Option (Bytes × Bytes) :=
  match s with
  | [] => some ([c.toUInt8], [])
  | d :: s =>
      if isDigit d then
        let c := c * 10 + (d.toNat - 48)
        match s with
        | [] => some ([c.toUInt8], [])
        | e :: s =>
            if isDigit e then
              let c := c * 10 + (e.toNat - 48)
              if 255 < c then none else some ([c.toUInt8], s)
            else some ([c.toUInt8], e :: s)
      else some ([c.toUInt8], d :: s)

/-- An escape that stays on its line, behind the backslash: what is saved, and what follows. -/
def escapeBytes : Bytes → Option (Bytes × Bytes)
  | [] => none
  | c :: s =>
      match plainEscape? c with
      | some d => some ([d], s)
      | none =>
          if c = 120 then hexEscape s
          else if c = 117 then unicodeEscape s
          else if isDigit c then decimalEscape (c.toNat - 48) s
          else none

/-- The blanks behind `\z`. -/
def skipSpaces (line : Nat) : Bytes → Except LexError LexState
  | [] => .ok ⟨[], line⟩
  | c :: s =>
      if isEol c then nextLine line >>= fun line => skipSpaces line (skipEol (c :: s))
      else if isBlank c then skipSpaces line s
      else .ok ⟨c :: s, line⟩
termination_by s => s.length
decreasing_by
  · exact length_skipEol_lt ‹_› s
  · exact Nat.lt_succ_self _

/-! ## From one place to a later one -/

/-- Every carriage return stands before a newline. -/
def CrLf (s : Bytes) : Prop := ∀ t, cr :: t <:+ s → t.head? = some nl

theorem CrLf.suffix {s t : Bytes} (h : CrLf s) (hs : t <:+ s) : CrLf t :=
  fun u hu => h u (hu.trans hs)

/-- The lexer gets from `s` on line `line` to `ls`.  It counts at most one line for each byte, and
the newlines where there is no other end of a line. -/
def Reads (s : Bytes) (line : Nat) (ls : LexState) : Prop :=
  ∃ w, s = w ++ ls.input ∧ line ≤ ls.line ∧ ls.line ≤ line + w.length ∧
    (CrLf s → ls.line = line + w.count nl)

namespace Reads

variable {s : Bytes} {line : Nat} {ls ls' : LexState}

/-- Bytes on one line. -/
theorem bytes {w : Bytes} (hw : nl ∉ w) (s : Bytes) (line : Nat) : Reads (w ++ s) line ⟨s, line⟩ :=
  ⟨w, rfl, Nat.le_refl _, Nat.le_add_right _ _, fun _ => by rw [List.count_eq_zero.mpr hw]; rfl⟩

theorem refl (s : Bytes) (line : Nat) : Reads s line ⟨s, line⟩ := bytes List.not_mem_nil s line

theorem byte {c : Byte} (hc : c ≠ nl) (s : Bytes) (line : Nat) : Reads (c :: s) line ⟨s, line⟩ :=
  bytes (w := [c]) (fun h => hc (List.mem_singleton.mp h).symm) s line

theorem trans (h : Reads s line ls) (h' : Reads ls.input ls.line ls') : Reads s line ls' := by
  obtain ⟨w, hw, hle, hlen, hcount⟩ := h
  obtain ⟨w', hw', hle', hlen', hcount'⟩ := h'
  refine ⟨w ++ w', by rw [hw, hw', List.append_assoc], hle.trans hle', ?_, fun hs => ?_⟩
  · rw [List.length_append]
    omega
  · rw [hcount' (hs.suffix ⟨w, hw.symm⟩), hcount hs, List.count_append, Nat.add_assoc]

/-- The end of a line. -/
theorem eol {c : Byte} (hc : isEol c = true) (s : Bytes) (line : Nat) :
    Reads (c :: s) line ⟨skipEol (c :: s), line + 1⟩ := by
  have hc' : Tmg.isEol c = true := hc
  have hone : ¬ CrLf (c :: s) ∨ c = nl ∨ s.head? = some nl := by
    by_cases hcr : c = cr
    · subst hcr
      by_cases hs : s.head? = some nl
      · exact .inr (.inr hs)
      · exact .inl fun h => hs (h s (List.suffix_refl _))
    · exact .inr (.inl (by simpa [isEol, hcr] using hc))
  cases s with
  | nil =>
      refine ⟨[c], by simp [skipEol, hc'], Nat.le_succ _, Nat.le_refl _, fun h => ?_⟩
      rcases hone with hone | rfl | hone
      · exact absurd h hone
      · rfl
      · exact absurd hone (by simp)
  | cons d s =>
      by_cases hpair : Tmg.isEol d = true ∧ d ≠ c
      · rw [skipEol, if_pos hc', if_pos hpair]
        refine ⟨[c, d], rfl, Nat.le_succ _, by simp, fun _ => ?_⟩
        obtain ⟨hd, hne⟩ := hpair
        have hnl : nl ≠ cr := by decide
        rcases (by simpa [Tmg.isEol] using hc' : c = nl ∨ c = cr) with rfl | rfl <;>
          rcases (by simpa [Tmg.isEol] using hd : d = nl ∨ d = cr) with rfl | rfl <;>
          first | exact absurd rfl hne | rfl
      · rw [skipEol, if_pos hc', if_neg hpair]
        refine ⟨[c], rfl, Nat.le_succ _, Nat.le_refl _, fun h => ?_⟩
        rcases hone with hone | rfl | hone
        · exact absurd h hone
        · rfl
        · obtain rfl : d = nl := by simpa using hone
          by_cases hcn : c = nl
          · rw [hcn]
            rfl
          · exact absurd ⟨by decide, Ne.symm hcn⟩ hpair

theorem length_le (h : Reads s line ls) : ls.input.length ≤ s.length := by
  obtain ⟨w, hw, -⟩ := h
  rw [hw, List.length_append]
  exact Nat.le_add_left _ _

end Reads

/-- The lexer gets from `s` to `ls`, and the last byte that it read is no newline. -/
def ReadsTo (s : Bytes) (line : Nat) (ls : LexState) : Prop :=
  Reads s line ls ∧ ∃ w c, s = w ++ c :: ls.input ∧ c ≠ nl

namespace ReadsTo

variable {s : Bytes} {line : Nat} {ls ls' : LexState}

theorem bytes {w : Bytes} (hw : nl ∉ w) (hne : w ≠ []) (s : Bytes) (line : Nat) :
    ReadsTo (w ++ s) line ⟨s, line⟩ := by
  refine ⟨.bytes hw s line, w.dropLast, w.getLast hne, ?_, fun h => hw (h ▸ List.getLast_mem hne)⟩
  rw [List.append_cons, List.dropLast_append_getLast]

theorem byte {c : Byte} (hc : c ≠ nl) (s : Bytes) (line : Nat) : ReadsTo (c :: s) line ⟨s, line⟩ :=
  ⟨.byte hc s line, [], c, rfl, hc⟩

theorem length_lt (h : ReadsTo s line ls) : ls.input.length < s.length := by
  obtain ⟨-, w, c, hw, -⟩ := h
  rw [hw, List.length_append, List.length_cons]
  omega

end ReadsTo

theorem Reads.to {s : Bytes} {line : Nat} {ls ls' : LexState} (h : Reads s line ls)
    (h' : ReadsTo ls.input ls.line ls') : ReadsTo s line ls' := by
  have hread := h.trans h'.1
  obtain ⟨w', c, hw', hc⟩ := h'.2
  obtain ⟨w, hw, -⟩ := h
  exact ⟨hread, w ++ w', c, by rw [hw, hw', List.append_assoc], hc⟩

theorem nextLine_eq_ok {line next : Nat} (h : nextLine line = .ok next) : next = line + 1 := by
  rw [nextLine] at h
  split at h
  · exact absurd h (by simp)
  · exact (Except.ok.inj h).symm

theorem skipEqs_split (count : Nat) (s : Bytes) :
    ∃ m, (skipEqs count s).1 = count + m ∧ s = List.replicate m eqs ++ (skipEqs count s).2 := by
  induction s generalizing count with
  | nil => exact ⟨0, rfl, rfl⟩
  | cons c s ih =>
      rw [skipEqs]
      split
      · next hc =>
          obtain ⟨m, hm, hs⟩ := ih (count + 1)
          refine ⟨m + 1, by rw [hm, Nat.add_assoc, Nat.add_comm 1], ?_⟩
          rw [List.replicate_succ, List.cons_append, ← hs, hc.1]
      · exact ⟨0, rfl, rfl⟩

theorem skipEqs_eq (s : Bytes) : s = List.replicate (skipEqs 0 s).1 eqs ++ (skipEqs 0 s).2 := by
  obtain ⟨m, hm, hs⟩ := skipEqs_split 0 s
  rw [Nat.zero_add] at hm
  rw [hm, ← hs]

/-- The `=` behind a bracket are on its line. -/
theorem reads_skipEqs {b : Byte} (hb : b ≠ nl) (s : Bytes) (line : Nat) :
    Reads (b :: s) line ⟨(skipEqs 0 s).2, line⟩ := by
  have hw : nl ∉ b :: List.replicate (skipEqs 0 s).1 eqs := by
    intro hmem
    rcases List.mem_cons.mp hmem with hbn | hrep
    · exact hb hbn.symm
    · exact absurd (List.eq_of_mem_replicate hrep) (by decide)
  have h := Reads.bytes hw (skipEqs 0 s).2 line
  rwa [List.cons_append, ← skipEqs_eq] at h

theorem head_of_skipeq {b : Byte} {s : Bytes} (h : 0 ≤ skipeq b s) :
    (skipEqs 0 s).2.head? = some b ∧ skipeq b s = (skipEqs 0 s).1 := by
  rw [skipeq] at h ⊢
  split at h
  · next hhead => exact ⟨hhead, if_pos hhead⟩
  · omega

theorem longLoop_reads {tv : Bool} {sep : Nat} {sb v : Bytes} {line : Nat} {s : Bytes}
    {ls : LexState} (h : longLoop tv sep sb line s = .ok (v, ls)) : ReadsTo s line ls := by
  fun_induction longLoop tv sep sb line s with
  | case1 => exact absurd h (by simp)
  | case2 sb line s hsep =>
      obtain ⟨-, rfl⟩ := Prod.mk.inj (Except.ok.inj h)
      have hpos : 0 ≤ skipeq rbr s := by omega
      obtain ⟨t, ht⟩ := List.head?_eq_some_iff.mp (head_of_skipeq hpos).1
      have hread := reads_skipEqs (b := rbr) (by decide) s line
      rw [ht] at hread ⊢
      exact hread.to (.byte (by decide) t line)
  | case3 sb line s _ ih => exact (reads_skipEqs (by decide) s line).to (ih h)
  | case4 sb line c s _ hc ih =>
      obtain ⟨next, hnext, h⟩ := bind_eq_ok_iff.mp h
      obtain rfl := nextLine_eq_ok hnext
      exact (Reads.eol hc s line).to (ih _ h)
  | case5 sb line c s _ hc ih =>
      have hne : c ≠ nl := by
        rintro rfl
        exact hc (by decide)
      exact (Reads.byte hne s line).to (ih h)

theorem longstring_reads {tv : Bool} {sep : Nat} {sb v : Bytes} {line : Nat} {s : Bytes}
    {ls : LexState} (h : longstring tv sep sb line (lbr :: s) = .ok (v, ls)) :
    ReadsTo (lbr :: s) line ls := by
  rw [longstring] at h
  obtain ⟨next, hnext, h⟩ := bind_eq_ok_iff.mp h
  obtain ⟨⟨sb', ls'⟩, hloop, h⟩ := map_eq_ok h
  obtain ⟨-, rfl⟩ := Prod.mk.inj h
  refine (Reads.byte (by decide) s line).to ?_
  rw [List.tail_cons] at hnext hloop
  cases s with
  | nil =>
      rw [List.head?_nil, Option.any_none, if_neg Bool.false_ne_true] at hnext
      obtain rfl := Except.ok.inj hnext
      exact longLoop_reads hloop
  | cons c s =>
      rw [List.head?_cons, Option.any_some] at hnext
      split at hnext
      · next hc =>
          obtain rfl := nextLine_eq_ok hnext
          exact (Reads.eol hc s line).to (longLoop_reads hloop)
      · next hc =>
          obtain rfl := Except.ok.inj hnext
          rw [skipEol_eq_self (by simpa using hc)] at hloop
          exact longLoop_reads hloop

/-! ## Strings, from the delimiter on -/

theorem ne_nl_of_isDigit {c : Byte} (h : isDigit c = true) : c ≠ nl := by
  rintro rfl
  exact absurd h (by decide)

theorem ne_nl_of_xdigit? {c : Byte} {v : Nat} (h : xdigit? c = some v) : c ≠ nl := by
  rintro rfl
  have hnone : xdigit? nl = none := by decide
  exact absurd (hnone.symm.trans h) (by simp)

theorem ne_nl_of_plainEscape? {c d : Byte} (h : plainEscape? c = some d) : c ≠ nl := by
  rintro rfl
  have hnone : plainEscape? nl = none := by decide
  exact absurd (hnone.symm.trans h) (by simp)

theorem unicodeLoop_split {c v : Nat} {s rest : Bytes} (h : unicodeLoop c s = some (v, rest)) :
    ∃ w, s = w ++ rest ∧ nl ∉ w := by
  induction s generalizing c with
  | nil => exact absurd h (by simp [unicodeLoop])
  | cons d s ih =>
      rw [unicodeLoop] at h
      cases hd : xdigit? d with
      | none => simp [hd] at h
      | some x =>
          have hne := ne_nl_of_xdigit? hd
          simp only [hd] at h
          split at h
          · exact absurd h (by simp)
          · split at h
            · next hclose =>
                obtain ⟨t, rfl⟩ := List.head?_eq_some_iff.mp hclose
                obtain ⟨-, rfl⟩ := Prod.mk.inj (Option.some.inj h)
                have hbrace : nl ≠ 125 := by decide
                exact ⟨[d, 125], rfl, by simp [hne.symm, hbrace]⟩
            · obtain ⟨w, rfl, hw⟩ := ih h
              exact ⟨d :: w, rfl, by simp [hne.symm, hw]⟩

theorem decimalEscape_split {c : Nat} {s bs rest : Bytes}
    (h : decimalEscape c s = some (bs, rest)) : ∃ w, s = w ++ rest ∧ nl ∉ w := by
  unfold decimalEscape at h
  split at h
  · obtain ⟨-, rfl⟩ := Prod.mk.inj (Option.some.inj h)
    exact ⟨[], rfl, List.not_mem_nil⟩
  · next d s =>
      split at h
      · next hd =>
          have hd := ne_nl_of_isDigit hd
          dsimp only at h
          split at h
          · obtain ⟨-, rfl⟩ := Prod.mk.inj (Option.some.inj h)
            exact ⟨[d], rfl, by simp [hd.symm]⟩
          · next e s =>
              split at h
              · next he =>
                  have he := ne_nl_of_isDigit he
                  split at h
                  · exact absurd h (by simp)
                  · obtain ⟨-, rfl⟩ := Prod.mk.inj (Option.some.inj h)
                    exact ⟨[d, e], rfl, by simp [hd.symm, he.symm]⟩
              · obtain ⟨-, rfl⟩ := Prod.mk.inj (Option.some.inj h)
                exact ⟨[d], rfl, by simp [hd.symm]⟩
      · obtain ⟨-, rfl⟩ := Prod.mk.inj (Option.some.inj h)
        exact ⟨[], rfl, List.not_mem_nil⟩

theorem hexEscape_split {s bs rest : Bytes} (h : hexEscape s = some (bs, rest)) :
    ∃ w, s = w ++ rest ∧ nl ∉ w := by
  unfold hexEscape at h
  split at h
  · next d e s =>
      obtain ⟨high, hhigh, h⟩ := Option.bind_eq_some_iff.mp h
      obtain ⟨low, hlow, h⟩ := Option.bind_eq_some_iff.mp h
      obtain ⟨-, rfl⟩ := Prod.mk.inj (Option.some.inj h)
      have hd := ne_nl_of_xdigit? hhigh
      have he := ne_nl_of_xdigit? hlow
      exact ⟨[d, e], rfl, by simp [hd.symm, he.symm]⟩
  · exact absurd h (by simp)

theorem unicodeEscape_split {s bs rest : Bytes} (h : unicodeEscape s = some (bs, rest)) :
    ∃ w, s = w ++ rest ∧ nl ∉ w := by
  rw [unicodeEscape] at h
  split at h
  · next hopen =>
      obtain ⟨t, rfl⟩ := List.head?_eq_some_iff.mp hopen
      obtain ⟨⟨v, t'⟩, hloop, h⟩ := Option.bind_eq_some_iff.mp h
      obtain ⟨bs', -, h⟩ := Option.bind_eq_some_iff.mp h
      obtain ⟨-, rfl⟩ := Prod.mk.inj (Option.some.inj h)
      obtain ⟨w, hw, hnl⟩ := unicodeLoop_split hloop
      rw [List.tail_cons] at hw
      have hbrace : nl ≠ 123 := by decide
      exact ⟨123 :: w, by rw [hw]; rfl, by simp [hbrace, hnl]⟩
  · exact absurd h (by simp)

/-- An escape stays on its line. -/
theorem escapeBytes_split {s bs rest : Bytes} (h : escapeBytes s = some (bs, rest)) :
    ∃ w, s = w ++ rest ∧ nl ∉ w := by
  cases s with
  | nil => exact absurd h (by simp [escapeBytes])
  | cons c s =>
      have hcons : c ≠ nl → (∃ w, s = w ++ rest ∧ nl ∉ w) → ∃ w, c :: s = w ++ rest ∧ nl ∉ w := by
        rintro hc ⟨w, rfl, hw⟩
        exact ⟨c :: w, rfl, by simp [hc.symm, hw]⟩
      rw [escapeBytes] at h
      cases hplain : plainEscape? c with
      | some d =>
          simp only [hplain] at h
          obtain ⟨-, rfl⟩ := Prod.mk.inj (Option.some.inj h)
          exact hcons (ne_nl_of_plainEscape? hplain) ⟨[], rfl, List.not_mem_nil⟩
      | none =>
          simp only [hplain] at h
          split at h
          · next hx => exact hcons (hx ▸ by decide) (hexEscape_split h)
          · split at h
            · next hu => exact hcons (hu ▸ by decide) (unicodeEscape_split h)
            · split at h
              · next hd => exact hcons (ne_nl_of_isDigit hd) (decimalEscape_split h)
              · exact absurd h (by simp)

theorem escapeBytes_reads {s bs rest : Bytes} (h : escapeBytes s = some (bs, rest)) (line : Nat) :
    Reads s line ⟨rest, line⟩ := by
  obtain ⟨w, rfl, hw⟩ := escapeBytes_split h
  exact Reads.bytes hw rest line

theorem skipSpaces_reads {line : Nat} {s : Bytes} {ls : LexState}
    (h : skipSpaces line s = .ok ls) : Reads s line ls := by
  fun_induction skipSpaces line s with
  | case1 line =>
      obtain rfl := Except.ok.inj h
      exact Reads.refl [] line
  | case2 line c s hc ih =>
      obtain ⟨next, hnext, h⟩ := bind_eq_ok_iff.mp h
      obtain rfl := nextLine_eq_ok hnext
      exact (Reads.eol hc s line).trans (ih _ h)
  | case3 line c s hc _ ih =>
      have hne : c ≠ nl := by
        rintro rfl
        exact hc (by decide)
      exact (Reads.byte hne s line).trans (ih h)
  | case4 line c s =>
      obtain rfl := Except.ok.inj h
      exact Reads.refl (c :: s) line

/-- The loop of `lex_string`, `sb` being what was saved behind the delimiter. -/
def stringLoop (delim : Byte) (sb : Bytes) (line : Nat) :
    Bytes → Except LexError (Bytes × LexState)
  | [] => .error ⟨.xstr, line⟩
  | c :: s =>
      if c = delim then .ok (sb, ⟨s, line⟩)
      else if isEol c then .error ⟨.xstr, line⟩
      else if c = bsl then
        if s.head? = some 122 then
          match _h : skipSpaces line s.tail with
          | .error e => .error e
          | .ok ls => stringLoop delim sb ls.line ls.input
        else if s.head?.any isEol then
          nextLine line >>= fun line => stringLoop delim (sb ++ [nl]) line (skipEol s)
        else if s = [] then .error ⟨.xstr, line⟩
        else
          match _h : escapeBytes s with
          | none => .error ⟨.xesc, line⟩
          | some (bs, rest) => stringLoop delim (sb ++ bs) line rest
      else stringLoop delim (sb ++ [c]) line s
termination_by s => s.length
decreasing_by
  · have hle := (skipSpaces_reads _h).length_le
    rw [List.length_tail] at hle
    rw [List.length_cons]
    omega
  · have hle := length_skipEol_le s
    exact Nat.lt_succ_of_le hle
  · exact Nat.lt_succ_of_le (escapeBytes_reads _h line).length_le
  · exact Nat.lt_succ_self _

theorem stringLoop_reads {delim : Byte} (hdelim : delim ≠ nl) {sb v : Bytes} {line : Nat} {s : Bytes}
    {ls : LexState} (h : stringLoop delim sb line s = .ok (v, ls)) : ReadsTo s line ls := by
  fun_induction stringLoop delim sb line s with
  | case1 => exact absurd h (by simp)
  | case2 sb line s =>
      obtain ⟨-, rfl⟩ := Prod.mk.inj (Except.ok.inj h)
      exact .byte hdelim s line
  | case3 => exact absurd h (by simp)
  | case4 => exact absurd h (by simp)
  | case5 sb line s hz ls' hspaces _ _ ih =>
      obtain ⟨t, rfl⟩ := List.head?_eq_some_iff.mp hz
      have hhere : Reads (bsl :: 122 :: t) line ⟨t, line⟩ :=
        (Reads.byte (by decide) _ line).trans (.byte (by decide) t line)
      exact (hhere.trans (skipSpaces_reads hspaces)).to (ih h)
  | case6 sb line s _ hc _ _ ih =>
      obtain ⟨next, hnext, h⟩ := bind_eq_ok_iff.mp h
      obtain rfl := nextLine_eq_ok hnext
      cases s with
      | nil => exact absurd hc (by simp)
      | cons c s =>
          exact ((Reads.byte (by decide) _ line).trans (.eol hc s line)).to (ih _ h)
  | case7 => exact absurd h (by simp)
  | case8 => exact absurd h (by simp)
  | case9 sb line s _ _ _ bs rest hescape _ _ ih =>
      exact ((Reads.byte (by decide) s line).trans (escapeBytes_reads hescape line)).to (ih h)
  | case10 sb line c s _ hc _ ih =>
      have hne : c ≠ nl := by
        rintro rfl
        exact hc (by decide)
      exact (Reads.byte hne s line).to (ih h)

/-! ## The scanner -/

/-- The reserved words. -/
def reservedWords : List Bytes :=
  [ascii "and", ascii "break", ascii "const", ascii "continue", ascii "do", ascii "else",
    ascii "elseif", ascii "end", ascii "false", ascii "for", ascii "function", ascii "goto",
    ascii "if", ascii "in", ascii "local", ascii "nil", ascii "not", ascii "or", ascii "repeat",
    ascii "return", ascii "then", ascii "true", ascii "until", ascii "while"]

/-- A name, or a word that is none. -/
def word (s : Bytes) : LexToken :=
  if reservedWords.any (· = s) then .reserved s else .name s

/-- The operators of two bytes that begin with `c`, by the second one. -/
def operators (c : Byte) : List (Byte × LexOp) :=
  if c = 61 then [(61, .eq)]
  else if c = 60 then [(61, .le), (60, .shl)]
  else if c = 62 then [(61, .ge), (62, .shr)]
  else if c = 33 then [(61, .ne_)]
  else if c = 58 then [(58, .label)]
  else if c = 63 then [(46, .nav), (63, .coal)]
  else if c = 38 then [(38, .and_)]
  else if c = 124 then [(124, .or_)]
  else []

/-- The token that begins with the `~` in front of `s`. -/
def tilde (line : Nat) (s : Bytes) : Except LexError (LexToken × LexState) :=
  if s.head? = some 61 then .ok (.op .ne, ⟨s.tail, line⟩)
  else if s.head? = some 62 then
    if s.tail.head? = some 62 then .ok (.op .sar, ⟨s.tail.tail, line⟩)
    else .error ⟨.xsymbol, line⟩
  else .ok (.char 126, ⟨s, line⟩)

/-- The token that begins with the byte `c` in front of `s`: an operator, or the byte. -/
def operator (c : Byte) (line : Nat) (s : Bytes) : LexToken × LexState :=
  match (operators c).find? fun o => s.head? = some o.1 with
  | some o => (.op o.2, ⟨s.tail, line⟩)
  | none => (.char c, ⟨s, line⟩)

/-- The token that begins with the `[` in front of `s`. -/
def bracket (line : Nat) (s : Bytes) : Except LexError (LexToken × LexState) :=
  if 0 ≤ skipeq lbr s then
    (longstring true (skipeq lbr s).toNat (savedEqs lbr s) line (skipEqs 0 s).2).map fun r =>
      (.string r.1, r.2)
  else if skipeq lbr s = -1 then .ok (.char lbr, ⟨(skipEqs 0 s).2, line⟩)
  else .error ⟨.xldelim, line⟩

/-- The comment behind its two dashes. -/
def comment (line : Nat) (s : Bytes) : Except LexError LexState :=
  if s.head? = some lbr then
    if 0 ≤ skipeq lbr s.tail then
      (longstring false (skipeq lbr s.tail).toNat [] line (skipEqs 0 s.tail).2).map Prod.snd
    else .ok ⟨(skipEqs 0 s.tail).2.dropWhile (!isEol ·), line⟩
  else .ok ⟨s.dropWhile (!isEol ·), line⟩

theorem reads_dropWhile (s : Bytes) (line : Nat) :
    Reads s line ⟨s.dropWhile (!isEol ·), line⟩ := by
  have hw : nl ∉ s.takeWhile (!isEol ·) := by
    intro hmem
    have hnl := List.mem_takeWhile_imp hmem
    exact absurd hnl (by decide)
  have h := Reads.bytes hw (s.dropWhile (!isEol ·)) line
  rwa [List.takeWhile_append_dropWhile] at h

theorem comment_reads {line : Nat} {s : Bytes} {ls : LexState} (h : comment line s = .ok ls) :
    Reads s line ls := by
  rw [comment] at h
  split at h
  · next hopen =>
      obtain ⟨t, rfl⟩ := List.head?_eq_some_iff.mp hopen
      rw [List.tail_cons] at h
      have hskip := reads_skipEqs (b := lbr) (by decide) t line
      split at h
      · next hsep =>
          obtain ⟨u, hu⟩ := List.head?_eq_some_iff.mp (head_of_skipeq hsep).1
          rw [hu] at h hskip
          obtain ⟨⟨v, ls'⟩, hlong, rfl⟩ := map_eq_ok h
          exact hskip.trans (longstring_reads hlong).1
      · obtain rfl := Except.ok.inj h
        exact hskip.trans (reads_dropWhile _ line)
  · obtain rfl := Except.ok.inj h
    exact reads_dropWhile s line

section

variable (strscan : Bytes → Bool)

/-- `lex_number`, `saved` being what was saved before. -/
def number (saved : Bytes) (line : Nat) (s : Bytes) : Except LexError (LexToken × LexState) :=
  if strscan (saved ++ (numberText s).1) then
    .ok (.number (saved ++ (numberText s).1), ⟨(numberText s).2, line⟩)
  else .error ⟨.xnumber, line⟩

/-- The token that begins with the `.` in front of `s`. -/
def dot (line : Nat) (s : Bytes) : Except LexError (LexToken × LexState) :=
  if s.head? = some 46 then
    if s.tail.head? = some 46 then .ok (.op .dots, ⟨s.tail.tail, line⟩)
    else .ok (.op .concat, ⟨s.tail, line⟩)
  else if s.head?.any isDigit then number strscan [46] line s
  else .ok (.char 46, ⟨s, line⟩)

/-- The token that begins with `c`, which is neither a blank nor a dash. -/
def token (c : Byte) (line : Nat) (s : Bytes) : Except LexError (LexToken × LexState) :=
  if isIdent c then
    if isDigit c then number strscan [] line (c :: s)
    else .ok (word (c :: s.takeWhile isIdent), ⟨s.dropWhile isIdent, line⟩)
  else if c = lbr then bracket line s
  else if c = 126 then tilde line s
  else if c = 34 ∨ c = 39 then (stringLoop c [] line s).map fun r => (.string r.1, r.2)
  else if c = 46 then dot strscan line s
  else .ok (operator c line s)

/-- `lex_scan` -/
def scan (line : Nat) : Bytes → Except LexError (LexToken × LexState)
  | [] => .ok (.eof, ⟨[], line⟩)
  | c :: s =>
      if isEol c then nextLine line >>= fun line => scan line (skipEol (c :: s))
      else if isBlank c then scan line s
      else if c = 45 then
        if s.head? = some 45 then
          match _h : comment line s.tail with
          | .error e => .error e
          | .ok ls => scan ls.line ls.input
        else if s.head? = some 62 then .ok (.op .arrow, ⟨s.tail, line⟩)
        else .ok (.char 45, ⟨s, line⟩)
      else token strscan c line s
termination_by s => s.length
decreasing_by
  · exact length_skipEol_lt ‹_› s
  · exact Nat.lt_succ_self _
  · have hle := (comment_reads _h).length_le
    rw [List.length_tail] at hle
    rw [List.length_cons]
    omega

end

/-! ## One token -/

theorem numberLoop_split (xp c : Byte) (s : Bytes) :
    ∃ w, s = w ++ (numberLoop xp c s).2 ∧ nl ∉ w := by
  induction s generalizing c with
  | nil => exact ⟨[], rfl, List.not_mem_nil⟩
  | cons d s ih =>
      rw [numberLoop]
      split
      · next hd =>
          have hne : d ≠ nl := by
            rintro rfl
            have hident : isIdent nl = false := by decide
            rw [hident] at hd
            exact absurd hd (by simp [nl])
          split
          · obtain ⟨w, hw, hnl⟩ := ih c
            exact ⟨d :: w, congrArg (d :: ·) hw, by simp [hne.symm, hnl]⟩
          · obtain ⟨w, hw, hnl⟩ := ih d
            exact ⟨d :: w, congrArg (d :: ·) hw, by simp [hne.symm, hnl]⟩
      · exact ⟨[], rfl, List.not_mem_nil⟩

/-- A number is read to its end, which is behind its first digit. -/
theorem numberText_reads {c : Byte} (hc : isDigit c = true) (s : Bytes) (line : Nat) :
    ReadsTo (c :: s) line ⟨(numberText (c :: s)).2, line⟩ := by
  have hne := ne_nl_of_isDigit hc
  have hto : ∀ {w rest : Bytes}, s = w ++ rest → nl ∉ w → ReadsTo (c :: s) line ⟨rest, line⟩ := by
    rintro w rest rfl hw
    exact ReadsTo.bytes (w := c :: w) (by simp [hne.symm, hw]) (List.cons_ne_nil _ _) rest line
  rw [numberText]
  split
  · have hzero : nl ∉ s.takeWhile (· = 95) := by
      intro hmem
      exact absurd (List.mem_takeWhile_imp hmem) (by decide)
    obtain ⟨w, hw, hnl⟩ := numberLoop_split
      (if (s.dropWhile (· = 95)).headD 0 ||| 32 = 120 then 112 else 101)
      ((s.dropWhile (· = 95)).headD 0) (s.dropWhile (· = 95))
    refine hto (w := s.takeWhile (· = 95) ++ w) ?_ (by simp [hzero, hnl])
    rw [List.append_assoc]
    exact (List.takeWhile_append_dropWhile ..).symm.trans (congrArg _ hw)
  · -- the first digit is read by the loop
    have hident : isIdent c = true := by rw [isIdent, hc]; rfl
    have hunder : c ≠ 95 := by
      rintro rfl
      exact absurd hc (by decide)
    obtain ⟨w, hw, hnl⟩ := numberLoop_split 101 c s
    rw [List.headD_cons, numberLoop, if_pos (.inl hident), if_neg hunder]
    exact hto hw hnl

section

variable {line : Nat} {s : Bytes} {tok : LexToken} {ls : LexState}

theorem tilde_reads (h : tilde line s = .ok (tok, ls)) :
    tok ≠ .eof ∧ ReadsTo (126 :: s) line ls := by
  rw [tilde] at h
  split at h
  · next hhead =>
      obtain ⟨t, rfl⟩ := List.head?_eq_some_iff.mp hhead
      obtain ⟨rfl, rfl⟩ := Prod.mk.inj (Except.ok.inj h)
      exact ⟨nofun, (Reads.byte (by decide) _ line).to (.byte (by decide) t line)⟩
  split at h
  · next hhead =>
      obtain ⟨t, rfl⟩ := List.head?_eq_some_iff.mp hhead
      split at h
      · next hhead =>
          obtain ⟨u, rfl⟩ := List.head?_eq_some_iff.mp hhead
          obtain ⟨rfl, rfl⟩ := Prod.mk.inj (Except.ok.inj h)
          have hfirst : Reads (126 :: 62 :: 62 :: u) line ⟨62 :: u, line⟩ :=
            (Reads.byte (by decide) _ line).trans (.byte (by decide) _ line)
          exact ⟨nofun, hfirst.to (.byte (by decide) u line)⟩
      · exact absurd h (by simp)
  · obtain ⟨rfl, rfl⟩ := Prod.mk.inj (Except.ok.inj h)
    exact ⟨nofun, .byte (by decide) s line⟩

theorem number_reads {strscan : Bytes → Bool} {saved : Bytes} {c : Byte} (hc : isDigit c = true)
    (h : number strscan saved line (c :: s) = .ok (tok, ls)) :
    tok ≠ .eof ∧ ReadsTo (c :: s) line ls := by
  rw [number] at h
  split at h
  · obtain ⟨rfl, rfl⟩ := Prod.mk.inj (Except.ok.inj h)
    exact ⟨nofun, numberText_reads hc s line⟩
  · exact absurd h (by simp)

theorem dot_reads {strscan : Bytes → Bool} (h : dot strscan line s = .ok (tok, ls)) :
    tok ≠ .eof ∧ ReadsTo (46 :: s) line ls := by
  rw [dot] at h
  split at h
  · next hhead =>
      obtain ⟨t, rfl⟩ := List.head?_eq_some_iff.mp hhead
      have hfirst : ReadsTo (46 :: 46 :: t) line ⟨t, line⟩ :=
        (Reads.byte (by decide) _ line).to (.byte (by decide) t line)
      split at h
      · next hhead =>
          obtain ⟨u, rfl⟩ := List.head?_eq_some_iff.mp hhead
          obtain ⟨rfl, rfl⟩ := Prod.mk.inj (Except.ok.inj h)
          exact ⟨nofun, hfirst.1.to (.byte (by decide) u line)⟩
      · obtain ⟨rfl, rfl⟩ := Prod.mk.inj (Except.ok.inj h)
        exact ⟨nofun, hfirst⟩
  split at h
  · next hdigit =>
      cases s with
      | nil => exact absurd hdigit (by simp)
      | cons d t =>
          obtain ⟨hne, hread⟩ := number_reads hdigit h
          exact ⟨hne, (Reads.byte (by decide) _ line).to hread⟩
  · obtain ⟨rfl, rfl⟩ := Prod.mk.inj (Except.ok.inj h)
    exact ⟨nofun, .byte (by decide) s line⟩

theorem ne_nl_of_mem_operators {c : Byte} {o : Byte × LexOp} (h : o ∈ operators c) : o.1 ≠ nl := by
  have hall : ∀ o ∈ operators c, o.1 ≠ nl := by
    rw [operators]
    split_ifs <;> decide
  exact hall o h

theorem operator_reads {c : Byte} (hc : c ≠ nl) (line : Nat) (s : Bytes) :
    (operator c line s).1 ≠ .eof ∧ ReadsTo (c :: s) line (operator c line s).2 := by
  rw [operator]
  split
  · next o ho =>
      have hhead : s.head? = some o.1 := by simpa using List.find?_some ho
      obtain ⟨t, rfl⟩ := List.head?_eq_some_iff.mp hhead
      exact ⟨nofun, (Reads.byte hc _ line).to
        (.byte (ne_nl_of_mem_operators (List.mem_of_find?_eq_some ho)) t line)⟩
  · exact ⟨nofun, .byte hc s line⟩

theorem bracket_reads (h : bracket line s = .ok (tok, ls)) :
    tok ≠ .eof ∧ ReadsTo (lbr :: s) line ls := by
  rw [bracket] at h
  have hskip := reads_skipEqs (b := lbr) (by decide) s line
  split at h
  · next hsep =>
      obtain ⟨t, ht⟩ := List.head?_eq_some_iff.mp (head_of_skipeq hsep).1
      rw [ht] at h hskip
      obtain ⟨⟨v, ls'⟩, hlong, h⟩ := map_eq_ok h
      obtain ⟨rfl, rfl⟩ := Prod.mk.inj h
      exact ⟨nofun, hskip.to (longstring_reads hlong)⟩
  split at h
  · next hneg hone =>
      obtain ⟨rfl, rfl⟩ := Prod.mk.inj (Except.ok.inj h)
      -- there is no `=` behind the bracket
      have hnone : (skipEqs 0 s).1 = 0 := by
        rw [skipeq] at hneg hone
        split at hone <;> omega
      have hself := skipEqs_eq s
      rw [hnone, List.replicate_zero, List.nil_append] at hself
      rw [← hself]
      exact ⟨nofun, .byte (by decide) s line⟩
  · exact absurd h (by simp)

theorem word_ne_eof (s : Bytes) : word s ≠ .eof := by
  rw [word]
  split <;> nofun

theorem name_reads {c : Byte} (hc : c ≠ nl) (s : Bytes) (line : Nat) :
    ReadsTo (c :: s) line ⟨s.dropWhile isIdent, line⟩ := by
  have hw : nl ∉ s.takeWhile isIdent := fun hmem =>
    absurd (List.mem_takeWhile_imp hmem) (by decide)
  have hto := ReadsTo.bytes (w := c :: s.takeWhile isIdent) (by simp [hc.symm, hw])
    (List.cons_ne_nil _ _) (s.dropWhile isIdent) line
  rwa [List.cons_append, List.takeWhile_append_dropWhile] at hto

end

/-- A token is read up to a later place. -/
theorem token_reads {strscan : Bytes → Bool} {c : Byte} (hc : c ≠ nl) {line : Nat} {s : Bytes}
    {tok : LexToken} {ls : LexState} (h : token strscan c line s = .ok (tok, ls)) :
    tok ≠ .eof ∧ ReadsTo (c :: s) line ls := by
  rw [token] at h
  split at h
  · split at h
    · next hdigit => exact number_reads hdigit h
    · obtain ⟨rfl, rfl⟩ := Prod.mk.inj (Except.ok.inj h)
      exact ⟨word_ne_eof _, name_reads hc s line⟩
  split at h
  · next hopen => exact hopen ▸ bracket_reads h
  split at h
  · next htilde => exact htilde ▸ tilde_reads h
  split at h
  · obtain ⟨⟨v, ls'⟩, hstring, h⟩ := map_eq_ok h
    obtain ⟨rfl, rfl⟩ := Prod.mk.inj h
    exact ⟨nofun, (Reads.byte hc s line).to (stringLoop_reads hc hstring)⟩
  split at h
  · next hdot => exact hdot ▸ dot_reads h
  · have hread := operator_reads hc line s
    rwa [Except.ok.inj h] at hread

/-- The scanner gets to the end of the input or to a later place. -/
theorem scan_reads {strscan : Bytes → Bool} {line : Nat} {s : Bytes} {tok : LexToken} {ls : LexState}
    (h : scan strscan line s = .ok (tok, ls)) :
    Reads s line ls ∧ (tok = .eof ∧ ls.input = [] ∨ tok ≠ .eof ∧ ReadsTo s line ls) := by
  fun_induction scan strscan line s with
  | case1 line =>
      obtain ⟨rfl, rfl⟩ := Prod.mk.inj (Except.ok.inj h)
      exact ⟨.refl [] line, .inl ⟨rfl, rfl⟩⟩
  | case2 line c s hc ih =>
      obtain ⟨next, hnext, h⟩ := bind_eq_ok_iff.mp h
      obtain rfl := nextLine_eq_ok hnext
      have hhere := Reads.eol hc s line
      obtain ⟨hread, hend⟩ := ih _ h
      exact ⟨hhere.trans hread, hend.imp_right (And.imp_right hhere.to)⟩
  | case3 line c s hc _ ih =>
      have hne : c ≠ nl := fun hnl => hc (hnl ▸ by decide)
      have hhere := Reads.byte hne s line
      obtain ⟨hread, hend⟩ := ih h
      exact ⟨hhere.trans hread, hend.imp_right (And.imp_right hhere.to)⟩
  | case4 => exact absurd h (by simp)
  | case5 line s hdash ls' hcomment _ _ ih =>
      obtain ⟨t, rfl⟩ := List.head?_eq_some_iff.mp hdash
      have hdashes : Reads (45 :: 45 :: t) line ⟨t, line⟩ :=
        (Reads.byte (by decide) _ line).trans (.byte (by decide) t line)
      have hhere := hdashes.trans (comment_reads hcomment)
      obtain ⟨hread, hend⟩ := ih h
      exact ⟨hhere.trans hread, hend.imp_right (And.imp_right hhere.to)⟩
  | case6 line s _ harrow =>
      obtain ⟨t, rfl⟩ := List.head?_eq_some_iff.mp harrow
      obtain ⟨rfl, rfl⟩ := Prod.mk.inj (Except.ok.inj h)
      have hread : ReadsTo (45 :: 62 :: t) line ⟨t, line⟩ :=
        (Reads.byte (by decide) _ line).to (.byte (by decide) t line)
      exact ⟨hread.1, .inr ⟨nofun, hread⟩⟩
  | case7 line s =>
      obtain ⟨rfl, rfl⟩ := Prod.mk.inj (Except.ok.inj h)
      have hread : ReadsTo (45 :: s) line ⟨s, line⟩ := .byte (by decide) s line
      exact ⟨hread.1, .inr ⟨nofun, hread⟩⟩
  | case8 line c s hc =>
      have hne : c ≠ nl := fun hnl => hc (hnl ▸ by decide)
      obtain ⟨hne, hread⟩ := token_reads hne h
      exact ⟨hread.1, .inr ⟨hne, hread⟩⟩

/-! ## The tokens of a chunk -/

/-- What `lj_lex_setup` finds: a chunk in Lua, a dump of bytecode, or one that it does not load. -/
inductive Setup where
  | source (ls : LexState)
  | bytecode
  | rejected
deriving DecidableEq, Repr

/-- The test of `lj_lex_setup` on the first byte, `header` saying that something was skipped before
it. -/
def setupAt (header : Bool) (ls : LexState) : Setup :=
  if ls.input.head? = some 27 then if header then .rejected else .bytecode else .source ls

/-- `lj_lex_setup` -/
def lexSetup (s : Bytes) : Except LexError Setup :=
  let bom : Bool := [0xef, 0xbb, 0xbf] <+: s
  let s := if bom then s.drop 3 else s
  if s.head? = some 35 then
    let t := s.dropWhile (!isEol ·)
    if t = [] then .ok (.source ⟨[], 1⟩)
    else nextLine 1 >>= fun line => .ok (setupAt true ⟨skipEol t, line⟩)
  else .ok (setupAt bom ⟨s, 1⟩)

/-- What the parser is given from line `line` on: the tokens up to the end, each with the state of
the lexer behind it. -/
def tokens (strscan : Bytes → Bool) (line : Nat) (s : Bytes) :
    Except LexError (List (LexToken × LexState)) :=
  match _h : scan strscan line s with
  | .error e => .error e
  | .ok (tok, ls) =>
      if _hend : tok = .eof then .ok []
      else (tokens strscan ls.line ls.input).map ((tok, ls) :: ·)
termination_by s.length
decreasing_by
  rcases (scan_reads _h).2 with ⟨heof, -⟩ | ⟨-, hread⟩
  · exact absurd heof _hend
  · exact hread.length_lt

/-- Where a token ends, and on which line. -/
theorem ReadsTo.line_eq {s : Bytes} {line : Nat} {ls : LexState} (h : ReadsTo s line ls)
    (hcr : CrLf s) : ∃ w c, s = w ++ c :: ls.input ∧ c ≠ nl ∧ ls.line = line + w.count nl := by
  obtain ⟨⟨w', hw', -, -, hcount⟩, w, c, hw, hc⟩ := h
  have hsplit : w' = w ++ [c] := by
    rw [← List.append_left_inj ls.input, ← hw', List.append_assoc]
    exact hw
  refine ⟨w, c, hw, hc, ?_⟩
  have hlast : [c].count nl = 0 := List.count_eq_zero.mpr fun h => hc (List.mem_singleton.mp h).symm
  rw [hcount hcr, hsplit, List.count_append, hlast, Nat.add_zero]

/-- The line of a token is the one on which it ends, where no end of a line is a lone carriage
return. -/
theorem tokens_line {strscan : Bytes → Bool} {line : Nat} {s : Bytes}
    {ts : List (LexToken × LexState)} (h : tokens strscan line s = .ok ts) (hcr : CrLf s) :
    ∀ t ∈ ts, ∃ w c, s = w ++ c :: t.2.input ∧ c ≠ nl ∧ t.2.line = line + w.count nl := by
  fun_induction tokens strscan line s generalizing ts with
  | case1 => exact absurd h (by simp)
  | case2 =>
      obtain rfl := Except.ok.inj h
      exact nofun
  | case3 line s tok ls hscan hend ih =>
      obtain ⟨us, hus, rfl⟩ := map_eq_ok h
      obtain ⟨hread, ⟨heof, -⟩ | ⟨-, hto⟩⟩ := scan_reads hscan
      · exact absurd heof hend
      obtain ⟨w', hw', -, -, hcount⟩ := hread
      intro t ht
      rcases List.mem_cons.mp ht with rfl | ht
      · exact hto.line_eq hcr
      · obtain ⟨w, c, hw, hc, hline⟩ := ih hus (hcr.suffix ⟨w', hw'.symm⟩) t ht
        refine ⟨w' ++ w, c, ?_, hc, ?_⟩
        · rw [List.append_assoc, ← hw, ← hw']
        · rw [hline, hcount hcr, List.count_append, Nat.add_assoc]

end Tmg.Lua
