/-
# `Tmg.Lua.Token` — the next token of a chunk

`lex_scan`, as far as the kind of the token goes: blanks and comments are skipped, and the
token is known by its first bytes.  What follows these, the rest of a name, a number or a
string, is not read.

| mode | behind |
| :-- | :-- |
| `blank` | blanks and whole comments |
| `dash` | one `-` |
| `comment` | `--` |
| `opening n` | `--[` and `n` times `=` |
| `short` | the beginning of a comment that the line ends |
| `long n k` | the opening bracket of a comment of level `n`; `k` is the number of `=` that stand behind the last `]`, where nothing else does |

A newline ends every comment but a long one, so what is read before it is the same in a
longer chunk (`lexScan_append`).
-/
import Tmg.Str
import Tmg.Lib.Decimal

namespace Tmg.Lua

open Lib

/-- The kinds of tokens; `char` is a token of one byte, `op` an operator of several. -/
inductive Token where
  | eof
  | name
  | number
  | string
  | label
  | nav
  | op
  | char (c : Byte)
  | bad
deriving DecidableEq, Repr

/-- `lj_char_isident` -/
def isIdent (c : Byte) : Bool :=
  isDigit c || (65 ≤ c && c ≤ 90) || c = 95 || (97 ≤ c && c ≤ 122) || 128 ≤ c

/-- `lex_iseol` -/
def isEol (c : Byte) : Bool := c = nl || c = cr

/-- `' '`, `'\t'`, `'\v'`, `'\f'` and the ends of lines. -/
def isBlank (c : Byte) : Bool := isEol c || c = 32 || c = 9 || c = 11 || c = 12

/-- `lex_skipeq`, behind the bracket `b`. -/
def lexSkipeq (b : Byte) (count : Int) : Bytes → Int
  | [] => -count - 1
  | c :: s =>
      if c = eqs then lexSkipeq b (count + 1) s else if c = b then count else -count - 1

/-- The bytes that make an operator of two bytes behind `c`. -/
def seconds (c : Byte) : Bytes :=
  if c = 61 then ascii "="
  else if c = 60 then ascii "=<"
  else if c = 62 then ascii "=>"
  else if c = 33 then ascii "="
  else if c = 38 then ascii "&"
  else if c = 124 then ascii "|"
  else []

/-- The token whose first byte is `c`, neither a blank nor `-`, and `s` what stands behind. -/
def tokenAt (c : Byte) (s : Bytes) : Token :=
  if isIdent c then
    if isDigit c then .number else .name
  else if c = lbr then
    let sep := lexSkipeq lbr 0 s
    if 0 ≤ sep then .string else if sep = -1 then .char lbr else .bad
  else if c = 126 then
    if s.head? = some 61 then .op
    else if s.head? = some 62 then
      if ascii ">>" <+: s then .op else .bad
    else .char c
  else if c = 58 then
    if s.head? = some 58 then .label else .char c
  else if c = 63 then
    if s.head? = some 46 then .nav else if s.head? = some 63 then .op else .char c
  else if c = 34 ∨ c = 39 then .string
  else if c = 46 then
    if s.head? = some 46 then .op else if s.head?.any isDigit then .number else .char c
  else if ∃ x ∈ seconds c, s.head? = some x then .op
  else .char c

/-- Where the scan stands. -/
inductive LexMode where
  | blank
  | dash
  | comment
  | opening (count : Nat)
  | short
  | long (sep : Nat) (count : Option Nat)

/-- `lex_longstring` at a byte. -/
def longByte (sep : Nat) (count : Option Nat) (c : Byte) : LexMode :=
  if c = rbr then
    if count = some sep then .blank else .long sep (some 0)
  else if c = eqs then .long sep (count.map (· + 1))
  else .long sep none

/-- `lex_scan` -/
def lexScan : LexMode → Bytes → Token
  | .blank, [] => .eof
  | .blank, c :: s =>
      if isBlank c then lexScan .blank s
      else if c = 45 then lexScan .dash s
      else tokenAt c s
  | .dash, [] => .char 45
  | .dash, c :: s =>
      if c = 45 then lexScan .comment s else if c = 62 then .op else .char 45
  | .comment, [] => .eof
  | .comment, c :: s =>
      if c = lbr then lexScan (.opening 0) s
      else if isEol c then lexScan .blank s
      else lexScan .short s
  | .opening _, [] => .eof
  | .opening count, c :: s =>
      if c = eqs then lexScan (.opening (count + 1)) s
      else if c = lbr then lexScan (.long count none) s
      else if isEol c then lexScan .blank s
      else lexScan .short s
  | .short, [] => .eof
  | .short, c :: s => if isEol c then lexScan .blank s else lexScan .short s
  | .long _ _, [] => .bad
  | .long sep count, c :: s => lexScan (longByte sep count c) s

/-- The first token of a chunk. -/
def firstToken (s : Bytes) : Token := lexScan .blank s

/-! ## The next line changes nothing -/

theorem lexSkipeq_append (b : Byte) (hb : b ≠ nl) (count : Int) (s rest : Bytes) :
    lexSkipeq b count (s ++ nl :: rest) = lexSkipeq b count s := by
  induction s generalizing count with
  | nil =>
      have heqs : nl ≠ eqs := by decide
      simp [lexSkipeq, heqs, Ne.symm hb]
  | cons c s ih => rw [List.cons_append, lexSkipeq, lexSkipeq, ih]

theorem head?_append_nl {x : Byte} (hx : x ≠ nl) (s rest : Bytes) :
    (s ++ nl :: rest).head? = some x ↔ s.head? = some x := by
  cases s with
  | nil => simpa using Ne.symm hx
  | cons c s => simp

theorem prefix_append_nl {p : Bytes} (hp : nl ∉ p) (s rest : Bytes) :
    p <+: s ++ nl :: rest ↔ p <+: s := by
  induction p generalizing s with
  | nil => simp
  | cons x p ih =>
      rw [List.mem_cons, not_or] at hp
      cases s with
      | nil => simp [Ne.symm hp.1]
      | cons c s => rw [List.cons_append, List.cons_prefix_cons, List.cons_prefix_cons, ih hp.2]

/-- No token goes on behind the end of a line, as far as its kind is concerned. -/
theorem tokenAt_append (c : Byte) (s rest : Bytes) :
    tokenAt c (s ++ nl :: rest) = tokenAt c s := by
  have hdigit : (s ++ nl :: rest).head?.any isDigit = s.head?.any isDigit := by
    have hnl : isDigit nl = false := by decide
    cases s with
    | nil => simp [hnl]
    | cons c s => rfl
  have hsar : ascii ">>" <+: s ++ nl :: rest ↔ ascii ">>" <+: s := prefix_append_nl (by decide) s rest
  have hseconds : nl ∉ seconds c := by
    unfold seconds
    split_ifs <;> decide
  have hop : (∃ x ∈ seconds c, (s ++ nl :: rest).head? = some x) ↔
      ∃ x ∈ seconds c, s.head? = some x := by
    refine exists_congr fun x => and_congr_right fun hx => ?_
    exact head?_append_nl (fun h => hseconds (h ▸ hx)) s rest
  have hhead : ∀ x : Byte, x ≠ nl → ((s ++ nl :: rest).head? = some x ↔ s.head? = some x) :=
    fun x hx => head?_append_nl hx s rest
  rw [tokenAt, tokenAt, lexSkipeq_append lbr (by decide), hdigit]
  -- the tests of `c` are the same, those of what follows are one by one
  refine if_congr Iff.rfl rfl (if_congr Iff.rfl rfl ?_)
  refine if_congr Iff.rfl (if_congr (hhead 61 (by decide)) rfl
    (if_congr (hhead 62 (by decide)) (if_congr hsar rfl rfl) rfl)) ?_
  refine if_congr Iff.rfl (if_congr (hhead 58 (by decide)) rfl rfl) ?_
  refine if_congr Iff.rfl (if_congr (hhead 46 (by decide)) rfl
    (if_congr (hhead 63 (by decide)) rfl rfl)) ?_
  refine if_congr Iff.rfl rfl (if_congr Iff.rfl (if_congr (hhead 46 (by decide)) rfl rfl) ?_)
  exact if_congr hop rfl rfl

theorem ite_ne {p : Prop} [Decidable p] {a b t : Token} (ha : a ≠ t) (hb : b ≠ t) :
    (if p then a else b) ≠ t := by
  split
  · exact ha
  · exact hb

theorem tokenAt_ne_eof (c : Byte) (s : Bytes) : tokenAt c s ≠ .eof := by
  unfold tokenAt
  dsimp only
  repeat' apply ite_ne
  all_goals simp

/-- What is read before a newline is read whatever stands behind it. -/
theorem lexScan_append (m : LexMode) (s rest : Bytes) (h : lexScan m s ≠ .bad) :
    lexScan m (s ++ nl :: rest) =
      if lexScan m s = .eof then lexScan .blank rest else lexScan m s := by
  induction s generalizing m with
  | nil =>
      have hblank : isBlank nl = true := by decide
      have heol : isEol nl = true := by decide
      have hlbr : nl ≠ lbr := by decide
      have heqs : nl ≠ eqs := by decide
      have hdash : nl ≠ 45 := by decide
      have hgt : nl ≠ 62 := by decide
      cases m <;> simp_all [lexScan]
  | cons c s ih =>
      rw [List.cons_append]
      cases m with
      | blank =>
          by_cases hblank : isBlank c = true
          · simpa [lexScan, hblank] using ih .blank (by simpa [lexScan, hblank] using h)
          · by_cases hdash : c = 45
            · subst hdash
              simpa [lexScan, hblank] using ih .dash (by simpa [lexScan, hblank] using h)
            · simp [lexScan, hblank, hdash, tokenAt_append, tokenAt_ne_eof]
      | dash =>
          by_cases hdash : c = 45
          · simpa [lexScan, hdash] using ih .comment (by simpa [lexScan, hdash] using h)
          · by_cases hgt : c = 62 <;> simp [lexScan, hdash, hgt]
      | comment =>
          by_cases hlbr : c = lbr
          · simpa [lexScan, hlbr] using ih (.opening 0) (by simpa [lexScan, hlbr] using h)
          · by_cases heol : isEol c = true
            · simpa [lexScan, hlbr, heol] using ih .blank (by simpa [lexScan, hlbr, heol] using h)
            · simpa [lexScan, hlbr, heol] using ih .short (by simpa [lexScan, hlbr, heol] using h)
      | opening count =>
          by_cases heqs : c = eqs
          · simpa [lexScan, heqs] using ih (.opening (count + 1)) (by simpa [lexScan, heqs] using h)
          · by_cases hlbr : c = lbr
            · have hne : lbr ≠ eqs := by decide
              simpa [lexScan, hlbr, hne] using
                ih (.long count none) (by simpa [lexScan, hlbr, hne] using h)
            · by_cases heol : isEol c = true
              · simpa [lexScan, heqs, hlbr, heol] using
                  ih .blank (by simpa [lexScan, heqs, hlbr, heol] using h)
              · simpa [lexScan, heqs, hlbr, heol] using
                  ih .short (by simpa [lexScan, heqs, hlbr, heol] using h)
      | short =>
          by_cases heol : isEol c = true
          · simpa [lexScan, heol] using ih .blank (by simpa [lexScan, heol] using h)
          · simpa [lexScan, heol] using ih .short (by simpa [lexScan, heol] using h)
      | long sep count => exact ih _ h

theorem firstToken_append {s : Bytes} (h : firstToken s ≠ .bad) (rest : Bytes) :
    firstToken (s ++ nl :: rest) = if firstToken s = .eof then firstToken rest else firstToken s :=
  lexScan_append .blank s rest h

@[simp] theorem firstToken_nl (s : Bytes) : firstToken (nl :: s) = firstToken s := by
  have hblank : isBlank nl = true := by decide
  rw [firstToken, lexScan, if_pos hblank, firstToken]

end Tmg.Lua
