/-
# `Tmg.Lua.LongRead` — `lex_longstring` reads long strings by the rule

The rule for a long string of level `n` is that its body runs to the first `]`, `n` times `=`,
`]`, and that its value is the body without a first end of a line, the others being newlines
(`readLong`, `luaValue`).  `lex_longstring` has another way to get there: it counts the `=` behind
every `]` that it meets, goes on from the byte that ended the count, saves what it reads, brackets
included, and takes the brackets off by their lengths.

| | |
| :-- | :-- |
| `skipeq_eq_iff` | the count is `n` where the closing bracket of level `n` stands |
| `longLoop_reading` | the loop saves the body, its ends of lines made newlines, and the bracket |
| `longstring_reading` | what is left when the brackets are taken off |

The count stops at 2^29, so this is said of levels up to there; a longer opening bracket is an
error of `lex_scan`.  Of the lines only the number is bounded, as `lex_newline` does it.
-/
import Tmg.Lua.Lexer

namespace Tmg.Lua

open Lib

/-- What a reader comes back with, the line left out. -/
def reading {α : Type} (x : Except LexError (α × LexState)) : Option (α × Bytes) :=
  x.toOption.map fun r => (r.1, r.2.input)

@[simp] theorem reading_ok {α : Type} (a : α) (ls : LexState) :
    reading (.ok (a, ls)) = some (a, ls.input) := rfl

@[simp] theorem reading_error {α : Type} (e : LexError) :
    reading (.error e : Except LexError (α × LexState)) = none := rfl

theorem reading_map {α β : Type} (f : α → β) (x : Except LexError (α × LexState)) :
    reading (x.map fun r => (f r.1, r.2)) = (reading x).map fun r => (f r.1, r.2) := by
  cases x <;> rfl

theorem nextLine_of_lt {line : Nat} (h : line + 1 < maxLine) : nextLine line = .ok (line + 1) := by
  rw [nextLine, if_neg (by omega)]

/-! ## The count of the `=` -/

theorem skipEqs_replicate {b : Byte} (hb : b ≠ eqs) {n : Nat} (s : Bytes) :
    ∀ {count : Nat}, count + n ≤ 0x20000000 →
      skipEqs count (List.replicate n eqs ++ b :: s) = (count + n, b :: s) := by
  induction n with
  | zero =>
      intro count _
      rw [List.replicate_zero, List.nil_append, skipEqs, if_neg (fun h => hb h.1)]
      rfl
  | succ n ih =>
      intro count hn
      rw [List.replicate_succ, List.cons_append, skipEqs, if_pos ⟨rfl, by omega⟩, ih (by omega)]
      exact Prod.ext (by simp only; omega) rfl

/-- The count is the level of the bracket that stands there. -/
theorem skipeq_eq_iff {b : Byte} (hb : b ≠ eqs) {n : Nat} (hn : n ≤ 0x20000000) {s : Bytes} :
    skipeq b s = n ↔ List.replicate n eqs ++ [b] <+: s := by
  constructor
  · intro h
    obtain ⟨hhead, hcount⟩ := head_of_skipeq (b := b) (s := s) (by omega)
    obtain ⟨t, ht⟩ := List.head?_eq_some_iff.mp hhead
    have hlen : (skipEqs 0 s).1 = n := by omega
    have hs := skipEqs_eq s
    rw [hlen, ht] at hs
    exact ⟨t, by rw [hs, List.append_assoc]; rfl⟩
  · rintro ⟨t, rfl⟩
    rw [List.append_assoc, List.singleton_append, skipeq, skipEqs_replicate hb t (by omega)]
    simp

/-! ## The body -/

/-- What is not the end of a line stays. -/
theorem normEol_cons {c : Byte} (hc : isEol c = false) (s : Bytes) : normEol (c :: s) = c :: normEol s := by
  have hc' : Tmg.isEol c = false := hc
  cases s with
  | nil => simp [normEol, hc']
  | cons d s => simp [normEol, hc']

theorem normEol_append {w : Bytes} (hw : ∀ c ∈ w, isEol c = false) (s : Bytes) :
    normEol (w ++ s) = w ++ normEol s := by
  induction w with
  | nil => rfl
  | cons c w ih =>
      rw [List.forall_mem_cons] at hw
      rw [List.cons_append, normEol_cons hw.1, ih hw.2, List.cons_append]

/-- The end of a line that `skipEol` skips is one newline. -/
theorem normEol_eol {c : Byte} (hc : isEol c = true) (s : Bytes) :
    normEol (c :: s) = nl :: normEol (skipEol (c :: s)) := by
  have hc' : Tmg.isEol c = true := hc
  cases s with
  | nil => simp [normEol, skipEol, hc']
  | cons d s =>
      rw [normEol, skipEol, if_pos hc', if_pos hc']
      split <;> rfl

/-- One byte or two end a line. -/
theorem skipEol_cases {c : Byte} (hc : isEol c = true) (s : Bytes) :
    (skipEol (c :: s) = s ∧ ∀ t, t <+: s → skipEol (c :: t) = t) ∨
      ∃ d t, s = d :: t ∧ isEol d = true ∧ skipEol (c :: s) = t ∧ ∀ u, skipEol (c :: d :: u) = u := by
  have hc' : Tmg.isEol c = true := hc
  have hone : skipEol [c] = [] := by simp [skipEol, hc']
  cases s with
  | nil =>
      refine .inl ⟨hone, fun t ht => ?_⟩
      rw [List.prefix_nil.mp ht, hone]
  | cons d s =>
      by_cases hpair : Tmg.isEol d = true ∧ d ≠ c
      · have htwo : ∀ u, skipEol (c :: d :: u) = u := by
          intro u
          rw [skipEol, if_pos hc', if_pos hpair]
        exact .inr ⟨d, s, rfl, hpair.1, htwo s, htwo⟩
      · have hstep : ∀ u, skipEol (c :: d :: u) = d :: u := by
          intro u
          rw [skipEol, if_pos hc', if_neg hpair]
        refine .inl ⟨hstep s, fun t ht => ?_⟩
        cases t with
        | nil => exact hone
        | cons e t =>
            obtain ⟨rfl, -⟩ := List.cons_prefix_cons.mp ht
            exact hstep t

section

variable {pat : Bytes} {d : Byte} (hd : isEol d = false) (hpat : pat.head? = some d)

include hd hpat

theorem not_prefix_eol {c : Byte} (hc : isEol c = true) (s : Bytes) : ¬ pat <+: c :: s := by
  intro h
  obtain ⟨t, rfl⟩ := List.head?_eq_some_iff.mp hpat
  obtain ⟨rfl, -⟩ := List.cons_prefix_cons.mp h
  rw [hc] at hd
  exact absurd hd (by decide)

/-- The mark is looked for behind an end of a line in front. -/
theorem cutAt_skipEol (s : Bytes) :
    cutAt pat (skipEol s) = (cutAt pat s).map fun p => (skipEol p.1, p.2) := by
  cases hs : s.head?.any isEol with
  | false =>
      -- what is cut off does not begin with one either
      rw [skipEol_eq_self hs]
      cases hcut : cutAt pat s with
      | none => rfl
      | some p =>
          have hself : skipEol p.1 = p.1 := by
            refine skipEol_eq_self ?_
            obtain ⟨t, ht⟩ := cutAt_front hcut
            cases hp : p.1 with
            | nil => rfl
            | cons c u =>
                rw [← ht, hp] at hs
                exact hs
          rw [Option.map_some, hself]
  | true =>
      cases s with
      | nil => exact absurd hs (by simp)
      | cons c s =>
          have hc : isEol c = true := hs
          rw [cutAt_cons (not_prefix_eol hd hpat hc s), Option.map_map]
          obtain ⟨hskip, hskips⟩ | ⟨e, t, rfl, he, hskip, hpair⟩ := skipEol_cases hc s
          · rw [hskip]
            cases hcut : cutAt pat s with
            | none => rfl
            | some p => simp [hskips p.1 (cutAt_front hcut)]
          · rw [hskip, cutAt_cons (not_prefix_eol hd hpat he t), Option.map_map]
            cases cutAt pat t with
            | none => rfl
            | some p => simp [hpair]

end

/-! ## The loop -/

theorem savedEqs_eq {n : Nat} {s : Bytes} (h : skipeq rbr s = n) :
    savedEqs rbr s ++ [rbr] = closing rbr eqs n ∧
      rbr :: s = closing rbr eqs n ++ (skipEqs 0 s).2.tail := by
  obtain ⟨hhead, hcount⟩ := head_of_skipeq (b := rbr) (s := s) (by omega)
  obtain ⟨t, ht⟩ := List.head?_eq_some_iff.mp hhead
  have hlen : (skipEqs 0 s).1 = n := by omega
  have hs := skipEqs_eq s
  rw [hlen, ht] at hs
  refine ⟨by rw [savedEqs, hlen]; rfl, ?_⟩
  rw [ht, List.tail_cons, closing, closingStem]
  conv_lhs => rw [hs]
  simp

/-- The mark does not stand at a `]` with another count behind it, nor at one of the `=`. -/
theorem cutAt_savedEqs {n : Nat} (hn : n ≤ 0x20000000) {s : Bytes} (h : skipeq rbr s ≠ n) :
    cutAt (closing rbr eqs n) (rbr :: s) =
      (cutAt (closing rbr eqs n) (skipEqs 0 s).2).map fun p => (savedEqs rbr s ++ p.1, p.2) := by
  have hsplit : rbr :: s = savedEqs rbr s ++ (skipEqs 0 s).2 := congrArg (rbr :: ·) (skipEqs_eq s)
  conv_lhs => rw [hsplit]
  refine cutAt_append fun j hj hpre => ?_
  rw [← hsplit] at hpre
  cases j with
  | zero =>
      rw [List.drop_zero] at hpre
      exact h ((skipeq_eq_iff rbr_ne_eqs hn).mpr (closing_prefix_cons_iff.mp hpre).2)
  | succ j =>
      rw [savedEqs, List.length_cons, List.length_replicate] at hj
      rw [List.drop_succ_cons, skipEqs_eq s, List.drop_append_of_le_length (by simp; omega),
        List.drop_replicate] at hpre
      obtain ⟨m, hm⟩ : ∃ m, (skipEqs 0 s).1 - j = m + 1 := ⟨(skipEqs 0 s).1 - j - 1, by omega⟩
      rw [hm, List.replicate_succ, List.cons_append] at hpre
      exact rbr_ne_eqs (closing_prefix_cons_iff.mp hpre).1.symm

/-- **The loop reads up to the first mark of its level.** -/
theorem longLoop_reading {n : Nat} (hn : n ≤ 0x20000000) {sb : Bytes} {line : Nat} {s : Bytes}
    (hline : line + s.length < maxLine) :
    reading (longLoop true n sb line s) =
      (cutAt (closing rbr eqs n) s).map fun p =>
        (sb ++ normEol p.1 ++ closing rbr eqs n, p.2) := by
  have hrbr : isEol rbr = false := by decide
  have hhead : (closing rbr eqs n).head? = some rbr := rfl
  fun_induction longLoop true n sb line s with
  | case1 => rw [cutAt, if_neg (closing_ne_nil rbr eqs n)]; rfl
  | case2 sb line s hsep =>
      obtain ⟨hsaved, hsplit⟩ := savedEqs_eq hsep
      have hpre : closing rbr eqs n <+: rbr :: s := ⟨_, hsplit.symm⟩
      have hdrop : (rbr :: s).drop (closing rbr eqs n).length = (skipEqs 0 s).2.tail := by
        rw [hsplit, List.drop_left]
      rw [cutAt, if_pos hpre, hdrop, reading_ok, List.append_assoc, hsaved]
      simp [normEol]
  | case3 sb line s hsep ih =>
      have hle := length_skipEqs_le 0 s
      have hplain : ∀ c ∈ savedEqs rbr s, isEol c = false := by
        intro c hc
        rcases List.mem_cons.mp hc with rfl | hc
        · exact hrbr
        · rw [List.eq_of_mem_replicate hc]
          decide
      rw [List.length_cons] at hline
      rw [ih (by omega), cutAt_savedEqs hn hsep, Option.map_map]
      simp [Function.comp_def, normEol_append hplain]
  | case4 sb line c s hne hc ih =>
      have hlt := length_skipEol_lt hc s
      rw [List.length_cons] at hline hlt
      rw [nextLine_of_lt (by omega)]
      refine (ih (line + 1) (by omega)).trans ?_
      rw [cutAt_skipEol hrbr hhead, cutAt_cons (not_prefix_eol hrbr hhead hc s), Option.map_map,
        Option.map_map, Option.map_map]
      simp [Function.comp_def, normEol_eol hc]
  | case5 sb line c s hne hc ih =>
      have hpre : ¬ closing rbr eqs n <+: c :: s := fun h => hne (closing_prefix_cons_iff.mp h).1
      rw [List.length_cons] at hline
      rw [ih (by omega), cutAt_cons hpre, Option.map_map]
      simp [Function.comp_def, normEol_cons (by simpa using hc)]

/-- What is left without the brackets is the value. -/
theorem longstring_reading {n : Nat} (hn : n ≤ 0x20000000) {line : Nat} {s : Bytes}
    (hline : line + s.length + 1 < maxLine) :
    reading (longstring true n (lbr :: List.replicate n eqs) line (lbr :: s)) =
      (cutAt (closing rbr eqs n) s).map fun p => (luaValue p.1, p.2) := by
  have hrbr : isEol rbr = false := by decide
  have hfirst : ∃ next, next ≤ line + 1 ∧
      (if s.head?.any isEol then nextLine line else .ok line) = .ok next := by
    split
    · exact ⟨line + 1, Nat.le_refl _, nextLine_of_lt (by omega)⟩
    · exact ⟨line, Nat.le_succ _, rfl⟩
  obtain ⟨next, hnext, hline'⟩ := hfirst
  have hle := length_skipEol_le s
  rw [longstring, List.tail_cons, hline']
  refine (reading_map (fun sb : Bytes => (sb.drop (2 + n)).take (sb.length - 2 * (2 + n))) _).trans ?_
  rw [longLoop_reading hn (by omega), cutAt_skipEol hrbr rfl, Option.map_map, Option.map_map]
  congr 1
  funext p
  have hlen : (lbr :: List.replicate n eqs ++ [lbr]).length = 2 + n := by
    simp
    omega
  simp only [Function.comp_def, luaValue, List.append_assoc, Prod.mk.injEq, and_true]
  rw [← List.append_assoc, ← List.append_assoc, List.append_assoc (_ ++ _), List.drop_left' hlen,
    List.take_left']
  simp only [List.length_append, length_closing, hlen]
  omega

/-! ## The token -/

theorem bracket_reading {n : Nat} (hn : n ≤ 0x20000000) {line : Nat} {s : Bytes}
    (hline : line + s.length + 1 < maxLine) :
    reading (bracket line (List.replicate n eqs ++ lbr :: s)) =
      (cutAt (closing rbr eqs n) s).map fun p => (.string (luaValue p.1), p.2) := by
  have hlbr : lbr ≠ eqs := by decide
  have hskip := skipEqs_replicate hlbr s (Nat.zero_add n ▸ hn)
  have hsep : skipeq lbr (List.replicate n eqs ++ lbr :: s) = n := by
    rw [skipeq, hskip]
    simp
  rw [bracket, hsep, if_pos (by omega), savedEqs, hskip, Nat.zero_add]
  refine (reading_map LexToken.string _).trans ?_
  rw [Int.toNat_natCast, longstring_reading hn hline, Option.map_map]
  rfl

theorem scan_eol (strscan : Bytes → Bool) {c : Byte} (hc : isEol c = true) {line : Nat}
    (hline : line + 1 < maxLine) (s : Bytes) :
    scan strscan line (c :: s) = scan strscan (line + 1) (skipEol (c :: s)) := by
  rw [scan, if_pos hc, nextLine_of_lt hline]
  rfl

theorem scan_token (strscan : Bytes → Bool) {c : Byte} (hblank : isBlank c = false) (hdash : c ≠ 45)
    (line : Nat) (s : Bytes) : scan strscan line (c :: s) = token strscan c line s := by
  have heol : isEol c = false := by
    cases hc : isEol c with
    | false => rfl
    | true =>
        rw [isBlank, hc] at hblank
        exact absurd hblank (by simp)
  rw [scan, heol, hblank, if_neg Bool.false_ne_true, if_neg Bool.false_ne_true, if_neg hdash]

theorem scan_bracket (strscan : Bytes → Bool) (line : Nat) (s : Bytes) :
    scan strscan line (lbr :: s) = bracket line s :=
  scan_token strscan (by decide) (by decide) line s

/-- **A long string is read by the rule**: up to the first mark of its level, without a first end of
a line and with a newline for each other one; and where the rule has no end for it there is no
token. -/
theorem scan_longString (strscan : Bytes → Bool) {n : Nat} (hn : n ≤ 0x20000000) {line : Nat}
    {s : Bytes} (hline : line + s.length + 1 < maxLine) :
    reading (scan strscan line (lbr :: (List.replicate n eqs ++ lbr :: s))) =
      (readLongString (lbr :: (List.replicate n eqs ++ lbr :: s))).map fun p => (.string p.1, p.2) := by
  have hlbr : lbr ≠ eqs := by decide
  rw [scan_bracket, bracket_reading hn hline, readLongString, readLong, takeWhile_run hlbr,
    dropWhile_run hlbr, if_pos ⟨rfl, rfl⟩, List.length_replicate, List.tail_cons, Option.map_map]
  rfl

/-- `[=[`, a newline, `]]]=])`. -/
theorem scan_longString_inner :
    reading (scan (fun _ => false) 1 (lbr :: (List.replicate 1 eqs ++ lbr :: ascii "\n]]]=])"))) =
      some (.string (ascii "]]"), ascii ")") :=
  (scan_longString _ (by decide) (by decide)).trans (by decide)

end Tmg.Lua
