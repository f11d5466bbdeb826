/-
# `Tmg.Lua.Kind` — the kind of the next token, read byte by byte

`lexScan` finds the kind of the next token in one pass over the bytes, with a mode for each place
that it can be in; `scan` follows the functions of the lexer and has the token's value.  Where `scan`
comes back with a token, `lexScan` has its kind: `firstToken_scan`.

`lexSkipeq` counts as many `=` as there are, `skipeq` stops at 2^29, so this is said of chunks no
longer than that.
-/
import Tmg.Lua.Stream

namespace Tmg.Lua

open Lib

/-- The kind of a token. -/
def LexToken.kind : LexToken → Token
  | .eof => .eof
  | .name _ => .name
  | .reserved _ => .name
  | .number _ => .number
  | .string _ => .string
  | .op .label => .label
  | .op .nav => .nav
  | .op _ => .op
  | .char c => .char c

/-! ## Comments -/

theorem skipEqs_eqs {count : Nat} (hcount : count < 0x20000000) (s : Bytes) :
    skipEqs count (eqs :: s) = skipEqs (count + 1) s := by
  rw [skipEqs, if_pos ⟨rfl, hcount⟩]

theorem skipEqs_stop {c : Byte} (hc : c ≠ eqs) (count : Nat) (s : Bytes) :
    skipEqs count (c :: s) = (count, c :: s) := by
  rw [skipEqs, if_neg fun h => hc h.1]

theorem lexSkipeq_eq (b : Byte) :
    ∀ {s : Bytes} {count : Nat}, count + s.length ≤ 0x20000000 →
      lexSkipeq b count s =
        if (skipEqs count s).2.head? = some b then ((skipEqs count s).1 : Int)
        else -(skipEqs count s).1 - 1
  | [], count, _ => by
      rw [lexSkipeq, skipEqs, if_neg (by simp)]
  | c :: s, count, h => by
      rw [List.length_cons] at h
      by_cases hc : c = eqs
      · subst hc
        rw [lexSkipeq, if_pos rfl, skipEqs_eqs (by omega)]
        exact lexSkipeq_eq b (show count + 1 + s.length ≤ 0x20000000 by omega)
      · rw [lexSkipeq, if_neg hc, skipEqs_stop hc]
        exact if_congr (by simp) rfl rfl

theorem skipeq_eq_lexSkipeq (b : Byte) {s : Bytes} (h : s.length ≤ 0x20000000) :
    skipeq b s = lexSkipeq b 0 s :=
  (lexSkipeq_eq b (show 0 + s.length ≤ 0x20000000 by omega)).symm

theorem lexScan_blank {c : Byte} (hc : isBlank c = true) (s : Bytes) :
    lexScan .blank (c :: s) = lexScan .blank s := by
  rw [lexScan, if_pos hc]

theorem isBlank_of_isEol {c : Byte} (hc : isEol c = true) : isBlank c = true := by
  rw [isBlank, hc]
  rfl

/-- The end of a line is skipped, of one byte or of two. -/
theorem lexScan_skipEol {c : Byte} (hc : isEol c = true) (s : Bytes) :
    lexScan .blank (c :: s) = lexScan .blank (skipEol (c :: s)) := by
  rw [lexScan_blank (isBlank_of_isEol hc)]
  obtain ⟨hskip, -⟩ | ⟨d, t, rfl, hd, hskip, -⟩ := skipEol_cases hc s
  · rw [hskip]
  · rw [hskip, lexScan_blank (isBlank_of_isEol hd)]

theorem lexScan_short (s : Bytes) :
    lexScan .short s = lexScan .blank (s.dropWhile (!isEol ·)) := by
  induction s with
  | nil => rfl
  | cons c s ih =>
      rw [lexScan]
      split
      · next hc =>
          rw [List.dropWhile_cons_of_neg (by simp [hc]), lexScan_blank (isBlank_of_isEol hc)]
      · next hc => rw [List.dropWhile_cons_of_pos (by simpa using hc), ih]

/-- Behind `--[`: a long comment, or a short one. -/
theorem lexScan_opening {s : Bytes} :
    ∀ {count : Nat}, count + s.length ≤ 0x20000000 →
      lexScan (.opening count) s =
        if (skipEqs count s).2.head? = some lbr then
          lexScan (.long (skipEqs count s).1 none) (skipEqs count s).2.tail
        else lexScan .blank ((skipEqs count s).2.dropWhile (!isEol ·)) := by
  induction s with
  | nil =>
      intro count _
      rw [skipEqs, if_neg (by simp)]
      rfl
  | cons c s ih =>
      intro count h
      rw [List.length_cons] at h
      by_cases hc : c = eqs
      · subst hc
        rw [lexScan, if_pos rfl, skipEqs_eqs (by omega), ih (by omega)]
      · rw [lexScan, if_neg hc, skipEqs_stop hc]
        by_cases hopen : c = lbr
        · rw [if_pos hopen]
          exact (if_pos (congrArg some hopen)).symm
        · have hhead : ¬ (c :: s).head? = some lbr := fun h => hopen (Option.some.inj h)
          rw [if_neg hopen, if_neg hhead]
          split
          · next heol =>
              rw [List.dropWhile_cons_of_neg (by simp [heol]), lexScan_blank (isBlank_of_isEol heol)]
          · next heol => rw [List.dropWhile_cons_of_pos (by simpa using heol), lexScan_short]

theorem lexScan_long {sep : Nat} {count : Option Nat} {c : Byte} (hc : c ≠ rbr) (he : c ≠ eqs)
    (s : Bytes) : lexScan (.long sep count) (c :: s) = lexScan (.long sep none) s := by
  rw [lexScan, longByte, if_neg hc, if_neg he]

/-- The ends of lines of the comment are passed over. -/
theorem lexScan_long_skipEol {sep : Nat} (s : Bytes) :
    lexScan (.long sep none) (skipEol s) = lexScan (.long sep none) s := by
  have hplain : ∀ {c : Byte}, isEol c = true → c ≠ rbr ∧ c ≠ eqs := by
    rintro c hc
    constructor <;> rintro rfl <;> exact absurd hc (by decide)
  cases hs : s.head?.any isEol with
  | false => rw [skipEol_eq_self hs]
  | true =>
      cases s with
      | nil => rfl
      | cons c s =>
          have hc : isEol c = true := hs
          rw [lexScan_long (hplain hc).1 (hplain hc).2]
          obtain ⟨hskip, -⟩ | ⟨d, t, rfl, hd, hskip, -⟩ := skipEol_cases hc s
          · rw [hskip]
          · rw [hskip, lexScan_long (hplain hd).1 (hplain hd).2]

/-- Behind a `]` of the comment. -/
theorem lexScan_mark {sep : Nat} {s : Bytes} :
    ∀ {count : Nat}, count + s.length ≤ 0x20000000 →
      lexScan (.long sep (some count)) s =
        if (skipEqs count s).2.head? = some rbr ∧ (skipEqs count s).1 = sep then
          lexScan .blank (skipEqs count s).2.tail
        else lexScan (.long sep none) (skipEqs count s).2 := by
  induction s with
  | nil =>
      intro count _
      rw [skipEqs, if_neg fun h => absurd h.1 (by simp)]
      rfl
  | cons c s ih =>
      intro count h
      rw [List.length_cons] at h
      by_cases hc : c = eqs
      · subst hc
        rw [skipEqs_eqs (by omega), ← ih (by omega), lexScan, longByte, if_neg (Ne.symm rbr_ne_eqs),
          if_pos rfl]
        rfl
      · rw [skipEqs_stop hc]
        by_cases hrbr : c = rbr
        · subst hrbr
          by_cases hcount : count = sep
          · rw [if_pos ⟨rfl, hcount⟩, lexScan, longByte, if_pos rfl, if_pos (congrArg some hcount)]
            rfl
          · have hne : ¬ some count = some sep := fun h => hcount (Option.some.inj h)
            rw [if_neg fun h => hcount h.2, lexScan, lexScan, longByte, longByte, if_pos rfl, if_pos rfl,
              if_neg hne, if_neg (by simp)]
        · have hhead : ¬ ((c :: s).head? = some rbr ∧ count = sep) :=
            fun h => hrbr (Option.some.inj h.1)
          rw [if_neg hhead, lexScan_long hrbr hc, lexScan_long hrbr hc]

/-- A long comment that ends. -/
theorem lexScan_longLoop {sep : Nat} {sb v : Bytes} {line : Nat} {s : Bytes} {ls : LexState}
    (h : longLoop false sep sb line s = .ok (v, ls)) (hlen : s.length ≤ 0x20000000) :
    lexScan (.long sep none) s = lexScan .blank ls.input := by
  have hmark : ∀ s : Bytes, lexScan (.long sep none) (rbr :: s) = lexScan (.long sep (some 0)) s := by
    intro s
    rw [lexScan, longByte, if_pos rfl, if_neg (by simp)]
  fun_induction longLoop false sep sb line s with
  | case1 => exact absurd h (by simp)
  | case2 sb line s hsep =>
      obtain ⟨rfl, rfl⟩ := Prod.mk.inj (Except.ok.inj h)
      obtain ⟨hhead, hcount⟩ := head_of_skipeq (b := rbr) (s := s) (by omega)
      rw [List.length_cons] at hlen
      rw [hmark, lexScan_mark (by omega), if_pos ⟨hhead, by omega⟩]
  | case3 sb line s hsep ih =>
      have hle := length_skipEqs_le 0 s
      rw [List.length_cons] at hlen
      have hnot : ¬ ((skipEqs 0 s).2.head? = some rbr ∧ (skipEqs 0 s).1 = sep) := by
        rintro ⟨hhead, hcount⟩
        rw [skipeq, if_pos hhead] at hsep
        exact hsep (congrArg Nat.cast hcount)
      rw [hmark, lexScan_mark (by omega), if_neg hnot]
      exact ih h (by omega)
  | case4 sb line c s hne hc ih =>
      obtain ⟨next, -, h⟩ := bind_eq_ok_iff.mp h
      have hlt := length_skipEol_lt hc s
      rw [← ih next h (by omega), lexScan_long_skipEol]
  | case5 sb line c s hne hc ih =>
      rw [List.length_cons] at hlen
      rw [← ih h (by omega), lexScan, longByte, if_neg hne]
      split <;> rfl

/-- A comment, behind its two dashes. -/
theorem lexScan_comment {line : Nat} {s : Bytes} {ls : LexState} (h : comment line s = .ok ls)
    (hlen : s.length ≤ 0x20000000) : lexScan .comment s = lexScan .blank ls.input := by
  rw [comment] at h
  split at h
  · next hopen =>
      obtain ⟨s, rfl⟩ := List.head?_eq_some_iff.mp hopen
      rw [List.tail_cons] at h
      rw [List.length_cons] at hlen
      rw [lexScan, if_pos rfl, lexScan_opening (by omega)]
      split at h
      · next hsep =>
          obtain ⟨⟨v, ls'⟩, hlong, rfl⟩ := map_eq_ok h
          obtain ⟨hhead, hcount⟩ := head_of_skipeq hsep
          obtain ⟨u, hu⟩ := List.head?_eq_some_iff.mp hhead
          have hle := length_skipEqs_le 0 s
          rw [hu] at hlong hle
          rw [List.length_cons] at hle
          rw [hcount, Int.toNat_natCast, longstring] at hlong
          obtain ⟨next, -, hlong⟩ := bind_eq_ok_iff.mp hlong
          obtain ⟨r, hloop, hr⟩ := map_eq_ok hlong
          obtain ⟨-, rfl⟩ := Prod.mk.inj hr
          have hskip := length_skipEol_le u
          rw [if_pos hhead, hu, List.tail_cons, ← lexScan_long_skipEol]
          exact lexScan_longLoop hloop (by omega)
      · next hsep =>
          obtain rfl := Except.ok.inj h
          have hhead : ¬ (skipEqs 0 s).2.head? = some lbr := by
            intro hhead
            rw [skipeq, if_pos hhead] at hsep
            exact hsep (Int.natCast_nonneg _)
          rw [if_neg hhead]
  · next hopen =>
      obtain rfl := Except.ok.inj h
      cases s with
      | nil => rfl
      | cons c s =>
          rw [lexScan, if_neg fun hc => hopen (congrArg some hc)]
          split
          · next heol =>
              rw [List.dropWhile_cons_of_neg (by simp [heol]), lexScan_blank (isBlank_of_isEol heol)]
          · next heol => rw [List.dropWhile_cons_of_pos (by simpa using heol), lexScan_short]

/-! ## Tokens -/

section

variable {strscan : Bytes → Bool} {line : Nat} {s : Bytes} {tok : LexToken} {ls : LexState}

theorem kind_word (s : Bytes) : (word s).kind = .name := by
  rw [word]
  split <;> rfl

theorem kind_number {saved : Bytes} (h : number strscan saved line s = .ok (tok, ls)) :
    tok.kind = .number := by
  rw [number] at h
  split at h
  · obtain ⟨rfl, -⟩ := Prod.mk.inj (Except.ok.inj h)
    rfl
  · exact absurd h (by simp)

theorem kind_tilde (h : tilde line s = .ok (tok, ls)) : tokenAt 126 s = tok.kind := by
  rw [tilde] at h
  split at h
  · next hhead =>
      obtain ⟨rfl, -⟩ := Prod.mk.inj (Except.ok.inj h)
      exact if_pos hhead
  · next hne =>
      refine (if_neg hne).trans ?_
      split at h
      · next hhead =>
          split at h
          · next htwo =>
              obtain ⟨rfl, -⟩ := Prod.mk.inj (Except.ok.inj h)
              obtain ⟨t, rfl⟩ := List.head?_eq_some_iff.mp hhead
              obtain ⟨u, rfl⟩ := List.head?_eq_some_iff.mp htwo
              exact (if_pos hhead).trans (if_pos ⟨u, rfl⟩)
          · exact absurd h (by simp)
      · next hgt =>
          obtain ⟨rfl, -⟩ := Prod.mk.inj (Except.ok.inj h)
          exact if_neg hgt

theorem kind_dot (h : dot strscan line s = .ok (tok, ls)) : tokenAt 46 s = tok.kind := by
  rw [dot] at h
  split at h
  · next hhead =>
      have htok : tok.kind = .op := by
        split at h <;> (obtain ⟨rfl, -⟩ := Prod.mk.inj (Except.ok.inj h); rfl)
      rw [htok]
      exact if_pos hhead
  · next hne =>
      refine (if_neg hne).trans ?_
      split at h
      · next hdigit => exact (if_pos hdigit).trans (kind_number h).symm
      · next hdigit =>
          obtain ⟨rfl, -⟩ := Prod.mk.inj (Except.ok.inj h)
          exact if_neg hdigit

theorem kind_operator {c : Byte} (hident : ¬ isIdent c = true) (hopen : c ≠ lbr) (htilde : c ≠ 126)
    (hquote : ¬ (c = 34 ∨ c = 39)) (hdot : c ≠ 46) (line : Nat) (s : Bytes) :
    tokenAt c s = (operator c line s).1.kind := by
  rw [tokenAt, if_neg hident, if_neg hopen, if_neg htilde, if_neg hquote, if_neg hdot, operator,
    operators, seconds]
  cases s with
  | nil =>
      have hnone : ∀ os : List (Byte × LexOp), os.find? (fun o => ([] : Bytes).head? = some o.1) = none :=
        fun os => by simp
      rw [hnone]
      simp [LexToken.kind]
  | cons d s =>
      split_ifs <;> simp_all [LexToken.kind, List.find?_cons, ascii]
      -- the two bytes that begin two operators each
      · next h => rcases h with rfl | rfl <;> rfl
      · next h => rcases h with rfl | rfl <;> rfl

/-- The token that begins with `c`. -/
theorem tokenAt_eq {c : Byte} (h : token strscan c line s = .ok (tok, ls))
    (hlen : s.length ≤ 0x20000000) : tokenAt c s = tok.kind := by
  rw [token] at h
  rw [tokenAt]
  split at h
  · next hident =>
      rw [if_pos hident]
      split at h
      · next hdigit => rw [if_pos hdigit, kind_number h]
      · next hdigit =>
          obtain ⟨rfl, -⟩ := Prod.mk.inj (Except.ok.inj h)
          rw [if_neg hdigit, kind_word]
  · next hident =>
      rw [if_neg hident]
      split at h
      · next hopen =>
          rw [if_pos hopen, ← skipeq_eq_lexSkipeq lbr hlen]
          rw [bracket] at h
          split at h
          · next hsep =>
              obtain ⟨r, -, hr⟩ := map_eq_ok h
              obtain ⟨rfl, -⟩ := Prod.mk.inj hr
              exact if_pos hsep
          · next hsep =>
              split at h
              · next hone =>
                  obtain ⟨rfl, -⟩ := Prod.mk.inj (Except.ok.inj h)
                  exact (if_neg hsep).trans (if_pos hone)
              · exact absurd h (by simp)
      · next hopen =>
          rw [if_neg hopen]
          split at h
          · next htilde =>
              subst htilde
              exact kind_tilde h
          · next htilde =>
              split at h
              · next hquote =>
                  obtain ⟨r, -, hr⟩ := map_eq_ok h
                  obtain ⟨rfl, -⟩ := Prod.mk.inj hr
                  rcases hquote with rfl | rfl <;> rfl
              · next hquote =>
                  split at h
                  · next hdot =>
                      subst hdot
                      exact kind_dot h
                  · next hdot =>
                      have hop := kind_operator hident hopen htilde hquote hdot line s
                      rw [Except.ok.inj h] at hop
                      rw [← hop, tokenAt, if_neg hident, if_neg hopen]

end

/-- **The kind that is read byte by byte is that of the token.** -/
theorem firstToken_scan {strscan : Bytes → Bool} {line : Nat} {s : Bytes} {tok : LexToken}
    {ls : LexState} (h : scan strscan line s = .ok (tok, ls)) (hlen : s.length ≤ 0x20000000) :
    firstToken s = tok.kind := by
  rw [firstToken]
  fun_induction scan strscan line s with
  | case1 =>
      obtain ⟨rfl, -⟩ := Prod.mk.inj (Except.ok.inj h)
      rfl
  | case2 line c s hc ih =>
      obtain ⟨next, -, h⟩ := bind_eq_ok_iff.mp h
      have hlt := length_skipEol_lt hc s
      rw [lexScan_skipEol hc, ih next h (by omega)]
  | case3 line c s heol hblank ih =>
      rw [List.length_cons] at hlen
      rw [lexScan_blank hblank, ih h (by omega)]
  | case4 => exact absurd h (by simp)
  | case5 line s hdash ls' hcomment heol hblank ih =>
      obtain ⟨u, rfl⟩ := List.head?_eq_some_iff.mp hdash
      rw [List.tail_cons] at hcomment
      rw [List.length_cons, List.length_cons] at hlen
      have hle := (comment_reads hcomment).length_le
      rw [← ih h (by omega), ← lexScan_comment hcomment (by omega)]
      rfl
  | case6 line s hdash harrow =>
      obtain ⟨u, rfl⟩ := List.head?_eq_some_iff.mp harrow
      obtain ⟨rfl, -⟩ := Prod.mk.inj (Except.ok.inj h)
      rfl
  | case7 line s hdash harrow heol hblank =>
      obtain ⟨rfl, -⟩ := Prod.mk.inj (Except.ok.inj h)
      rw [lexScan, if_neg hblank, if_pos rfl]
      cases s with
      | nil => rfl
      | cons c s =>
          rw [lexScan, if_neg fun hc => hdash (congrArg some hc), if_neg fun hc => harrow (congrArg some hc)]
          rfl
  | case8 line c s heol hblank hdash =>
      rw [List.length_cons] at hlen
      rw [lexScan, if_neg hblank, if_neg hdash, tokenAt_eq h (by omega)]

/-- The kind of the first of some tokens, or of the end. -/
def nextKind (ts : List LexToken) : Token := (ts.head?.map LexToken.kind).getD .eof

/-- So it is with the tokens of a chunk. -/
theorem firstToken_stream {strscan : Bytes → Bool} {s : Bytes} {ts : List LexToken}
    (h : stream strscan s = some ts) (hlen : s.length ≤ 0x20000000) : firstToken s = nextKind ts := by
  rw [stream] at h
  cases hscan : scan strscan 1 s with
  | error e => exact absurd ((streamFrom_error hscan).symm.trans h) (by simp)
  | ok r =>
      obtain ⟨tok, ls⟩ := r
      rw [firstToken_scan hscan hlen]
      rw [streamFrom_ok hscan] at h
      split at h
      · next heof =>
          obtain rfl := Option.some.inj h
          rw [heof]
          rfl
      · obtain ⟨us, -, rfl⟩ := Option.map_eq_some_iff.mp h
        rfl

end Tmg.Lua
