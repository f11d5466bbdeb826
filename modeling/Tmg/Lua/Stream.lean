/-
# `Tmg.Lua.Stream` — the tokens of a chunk, put together from those of its parts

The line does not decide what is read, and neither does what stands behind: a reader that comes
back from some input comes back with the same from every line, and from the input with more behind
it, where it did not get to the end or a newline is next.  Each function of the lexer has its
lemma (`…_append`), with the state of the line bounded as `lex_newline` has it.

| | |
| :-- | :-- |
| `scan_append` | one token |
| `scan_eof_append` | what is only blanks and comments, and a newline behind it, is skipped |
| `stream_append` | the tokens up to a newline, then those behind it |
-/
import Tmg.Lua.LongRead

namespace Tmg.Lua

open Lib

/-- Nothing comes next, or a newline. -/
def EndsHere (t : Bytes) : Prop := ∀ c ∈ t.head?, c = nl

theorem endsHere_nil : EndsHere [] := nofun

theorem endsHere_nl (t : Bytes) : EndsHere (nl :: t) := fun _ hc => (Option.some.inj hc).symm

/-- There is something left, or nothing comes next but a newline. -/
def Closed (rest t : Bytes) : Prop := rest ≠ [] ∨ EndsHere t

/-- What is no newline is not next. -/
theorem Closed.head? {rest t : Bytes} (h : Closed rest t) {c : Byte} (hc : c ≠ nl) :
    (rest ++ t).head? = some c ↔ rest.head? = some c := by
  cases rest with
  | cons d rest => rfl
  | nil =>
      have hend := h.resolve_left (fun hne => hne rfl)
      rw [List.nil_append, List.head?_nil]
      exact iff_of_false (fun ht => hc (hend c ht)) nofun

/-! ## Long strings and comments -/

theorem skipEqs_append {s t : Bytes} {count : Nat} (h : Closed (skipEqs count s).2 t) :
    skipEqs count (s ++ t) = ((skipEqs count s).1, (skipEqs count s).2 ++ t) := by
  induction s generalizing count with
  | nil =>
      cases t with
      | nil => rfl
      | cons c t =>
          obtain rfl := h.resolve_left (fun hne => hne rfl) c rfl
          have hne : nl ≠ eqs := by decide
          simp [skipEqs, hne]
  | cons c s ih =>
      rw [List.cons_append, skipEqs, skipEqs]
      rw [skipEqs] at h
      split
      · next hc =>
          rw [if_pos hc] at h
          exact ih h
      · rfl

theorem skipeq_append {b : Byte} (hb : b ≠ nl) {s t : Bytes} (h : Closed (skipEqs 0 s).2 t) :
    skipeq b (s ++ t) = skipeq b s := by
  rw [skipeq, skipeq, skipEqs_append h]
  exact if_congr (h.head? hb) rfl rfl

theorem savedEqs_append {b : Byte} {s t : Bytes} (h : Closed (skipEqs 0 s).2 t) :
    savedEqs b (s ++ t) = savedEqs b s := by
  rw [savedEqs, savedEqs, skipEqs_append h]

theorem skipEol_append (c d : Byte) (s t : Bytes) :
    skipEol (c :: d :: s ++ t) = skipEol (c :: d :: s) ++ t := by
  rw [List.cons_append, List.cons_append, skipEol, skipEol]
  split_ifs <;> rfl

theorem longLoop_nil (tv : Bool) (sep : Nat) (sb : Bytes) (line : Nat) :
    longLoop tv sep sb line [] = .error ⟨if tv then .xlstr else .xlcom, line⟩ := by
  rw [longLoop]

theorem longLoop_append {tv : Bool} {sep : Nat} {sb v : Bytes} {line : Nat} {s : Bytes} {ls : LexState}
    (h : longLoop tv sep sb line s = .ok (v, ls)) (t : Bytes) {n : Nat} (hn : n + s.length < maxLine) :
    ∃ m, longLoop tv sep sb n (s ++ t) = .ok (v, ⟨ls.input ++ t, m⟩) := by
  have hrbr : rbr ≠ nl := by decide
  fun_induction longLoop tv sep sb line s generalizing n with
  | case1 => exact absurd h (by simp)
  | case2 sb line s hsep =>
      obtain ⟨rfl, rfl⟩ := Prod.mk.inj (Except.ok.inj h)
      obtain ⟨u, hu⟩ := List.head?_eq_some_iff.mp (head_of_skipeq (b := rbr) (s := s) (by omega)).1
      have hrest : Closed (skipEqs 0 s).2 t := .inl (by rw [hu]; exact List.cons_ne_nil _ _)
      refine ⟨n, ?_⟩
      rw [List.cons_append, longLoop, if_pos rfl, skipeq_append hrbr hrest, if_pos hsep,
        savedEqs_append hrest, skipEqs_append hrest, hu]
      rfl
  | case3 sb line s hsep ih =>
      have hrest : Closed (skipEqs 0 s).2 t := by
        refine .inl fun hnil => ?_
        rw [hnil, longLoop_nil] at h
        exact absurd h (by simp)
      have hle := length_skipEqs_le 0 s
      rw [List.length_cons] at hn
      obtain ⟨m, hm⟩ := ih h (n := n) (by omega)
      refine ⟨m, ?_⟩
      rw [List.cons_append, longLoop, if_pos rfl, skipeq_append hrbr hrest, if_neg hsep,
        savedEqs_append hrest, skipEqs_append hrest]
      exact hm
  | case4 sb line c s hne hc ih =>
      obtain ⟨next, hnext, h⟩ := bind_eq_ok_iff.mp h
      have hlt := length_skipEol_lt hc s
      rw [List.length_cons] at hn hlt
      obtain ⟨m, hm⟩ := ih next h (n := n + 1) (by omega)
      refine ⟨m, ?_⟩
      cases s with
      | nil =>
          have hnil : skipEol [c] = [] := List.eq_nil_of_length_eq_zero (by simpa using hlt)
          rw [hnil, longLoop_nil] at h
          exact absurd h (by simp)
      | cons d s =>
          rw [List.cons_append, longLoop, if_neg hne, if_pos hc, nextLine_of_lt (by omega)]
          rw [← skipEol_append] at hm
          exact hm
  | case5 sb line c s hne hc ih =>
      rw [List.length_cons] at hn
      obtain ⟨m, hm⟩ := ih h (n := n) (by omega)
      refine ⟨m, ?_⟩
      rw [List.cons_append, longLoop, if_neg hne, if_neg hc]
      exact hm

theorem longstring_append {tv : Bool} {sep : Nat} {sb v : Bytes} {line : Nat} {s : Bytes}
    {ls : LexState} (h : longstring tv sep sb line (lbr :: s) = .ok (v, ls)) (t : Bytes) {n : Nat}
    (hn : n + s.length + 1 < maxLine) :
    ∃ m, longstring tv sep sb n (lbr :: s ++ t) = .ok (v, ⟨ls.input ++ t, m⟩) := by
  rw [longstring] at h
  obtain ⟨next, hnext, h⟩ := bind_eq_ok_iff.mp h
  obtain ⟨⟨sb', ls'⟩, hloop, h⟩ := map_eq_ok h
  obtain ⟨rfl, rfl⟩ := Prod.mk.inj h
  rw [List.tail_cons] at hloop
  cases s with
  | nil =>
      rw [skipEol, longLoop_nil] at hloop
      exact absurd hloop (by simp)
  | cons c s =>
      rw [List.length_cons] at hn
      rw [List.cons_append, longstring, List.tail_cons]
      cases hc : isEol c with
      | true =>
          have hlt := length_skipEol_lt hc s
          rw [List.length_cons] at hlt
          obtain ⟨m, hm⟩ := longLoop_append hloop t (n := n + 1) (by omega)
          refine ⟨m, ?_⟩
          cases s with
          | nil =>
              have hnil : skipEol [c] = [] := List.eq_nil_of_length_eq_zero (by simpa using hlt)
              rw [hnil, longLoop_nil] at hloop
              exact absurd hloop (by simp)
          | cons d s =>
              rw [← skipEol_append] at hm
              rw [List.cons_append, List.head?_cons, Option.any_some, hc, if_pos rfl,
                nextLine_of_lt (by omega)]
              show (longLoop ..).map _ = _
              rw [List.cons_append] at hm
              rw [hm]
              rfl
      | false =>
          have hself : ∀ u, skipEol (c :: u) = c :: u := fun u => skipEol_eq_self (by simpa using hc)
          rw [hself] at hloop
          obtain ⟨m, hm⟩ := longLoop_append hloop t (n := n) (by rw [List.length_cons]; omega)
          refine ⟨m, ?_⟩
          rw [List.cons_append, List.head?_cons, Option.any_some, hc, if_neg Bool.false_ne_true, hself]
          show (longLoop ..).map _ = _
          rw [List.cons_append] at hm
          rw [hm]
          rfl

/-! ## Strings -/

theorem unicodeLoop_append {c v : Nat} {s rest : Bytes} (h : unicodeLoop c s = some (v, rest))
    (t : Bytes) : unicodeLoop c (s ++ t) = some (v, rest ++ t) := by
  induction s generalizing c with
  | nil => exact absurd h (by simp [unicodeLoop])
  | cons d s ih =>
      rw [List.cons_append, unicodeLoop]
      rw [unicodeLoop] at h
      cases hd : xdigit? d with
      | none => simp [hd] at h
      | some x =>
          simp only [hd] at h ⊢
          split at h
          · exact absurd h (by simp)
          · next hrange =>
              rw [if_neg hrange]
              split at h
              · next hclose =>
                  obtain ⟨u, rfl⟩ := List.head?_eq_some_iff.mp hclose
                  obtain ⟨rfl, rfl⟩ := Prod.mk.inj (Option.some.inj h)
                  rfl
              · next hclose =>
                  -- the loop goes on, so there is a byte
                  cases s with
                  | nil => exact absurd h (by simp [unicodeLoop])
                  | cons e s =>
                      rw [if_neg (by simpa using hclose)]
                      exact ih h

theorem hexEscape_append {s bs rest : Bytes} (h : hexEscape s = some (bs, rest)) (t : Bytes) :
    hexEscape (s ++ t) = some (bs, rest ++ t) := by
  unfold hexEscape at h
  split at h
  · next d e s =>
      obtain ⟨high, hhigh, h⟩ := Option.bind_eq_some_iff.mp h
      obtain ⟨low, hlow, h⟩ := Option.bind_eq_some_iff.mp h
      obtain ⟨rfl, rfl⟩ := Prod.mk.inj (Option.some.inj h)
      simp [hexEscape, hhigh, hlow]
  · exact absurd h (by simp)

theorem unicodeEscape_append {s bs rest : Bytes} (h : unicodeEscape s = some (bs, rest)) (t : Bytes) :
    unicodeEscape (s ++ t) = some (bs, rest ++ t) := by
  rw [unicodeEscape] at h
  split at h
  · next hopen =>
      obtain ⟨u, rfl⟩ := List.head?_eq_some_iff.mp hopen
      obtain ⟨⟨v, u'⟩, hloop, h⟩ := Option.bind_eq_some_iff.mp h
      obtain ⟨bs', hutf8, h⟩ := Option.bind_eq_some_iff.mp h
      obtain ⟨rfl, rfl⟩ := Prod.mk.inj (Option.some.inj h)
      have happ := unicodeLoop_append hloop t
      rw [List.tail_cons] at happ
      simp [unicodeEscape, happ, hutf8]
  · exact absurd h (by simp)

theorem decimalEscape_append {c : Nat} {s bs rest : Bytes} (h : decimalEscape c s = some (bs, rest))
    (hne : rest ≠ []) (t : Bytes) : decimalEscape c (s ++ t) = some (bs, rest ++ t) := by
  unfold decimalEscape at h
  split at h
  · obtain ⟨-, rfl⟩ := Prod.mk.inj (Option.some.inj h)
    exact absurd rfl hne
  · next d s =>
      rw [List.cons_append, decimalEscape]
      split at h
      · next hd =>
          rw [if_pos hd]
          dsimp only at h
          split at h
          · obtain ⟨-, rfl⟩ := Prod.mk.inj (Option.some.inj h)
            exact absurd rfl hne
          · next e s =>
              rw [List.cons_append]
              dsimp only
              split at h
              · next he =>
                  rw [if_pos he]
                  split at h
                  · exact absurd h (by simp)
                  · next hrange =>
                      obtain ⟨rfl, rfl⟩ := Prod.mk.inj (Option.some.inj h)
                      rw [if_neg hrange]
              · next he =>
                  obtain ⟨rfl, rfl⟩ := Prod.mk.inj (Option.some.inj h)
                  rw [if_neg he]
                  rfl
      · next hd =>
          obtain ⟨rfl, rfl⟩ := Prod.mk.inj (Option.some.inj h)
          rw [if_neg hd]
          rfl

theorem escapeBytes_append {s bs rest : Bytes} (h : escapeBytes s = some (bs, rest)) (hne : rest ≠ [])
    (t : Bytes) : escapeBytes (s ++ t) = some (bs, rest ++ t) := by
  cases s with
  | nil => exact absurd h (by simp [escapeBytes])
  | cons c s =>
      rw [List.cons_append, escapeBytes]
      rw [escapeBytes] at h
      cases hplain : plainEscape? c with
      | some d =>
          simp only [hplain] at h ⊢
          obtain ⟨rfl, rfl⟩ := Prod.mk.inj (Option.some.inj h)
          rfl
      | none =>
          simp only [hplain] at h ⊢
          split at h
          · next hx => rw [if_pos hx, hexEscape_append h]
          · next hx =>
              rw [if_neg hx]
              split at h
              · next hu => rw [if_pos hu, unicodeEscape_append h]
              · next hu =>
                  rw [if_neg hu]
                  split at h
                  · next hd => rw [if_pos hd, decimalEscape_append h hne]
                  · exact absurd h (by simp)

theorem skipSpaces_append {line : Nat} {s : Bytes} {ls : LexState} (h : skipSpaces line s = .ok ls)
    (hne : ls.input ≠ []) (t : Bytes) {n : Nat} (hn : n + s.length < maxLine) :
    ∃ m, m ≤ n + s.length - ls.input.length ∧ skipSpaces n (s ++ t) = .ok ⟨ls.input ++ t, m⟩ := by
  fun_induction skipSpaces line s generalizing n with
  | case1 =>
      obtain rfl := Except.ok.inj h
      exact absurd rfl hne
  | case2 line c s hc ih =>
      obtain ⟨next, hnext, h⟩ := bind_eq_ok_iff.mp h
      have hlt := length_skipEol_lt hc s
      rw [List.length_cons] at hn hlt
      obtain ⟨m, hle, hm⟩ := ih next h (n := n + 1) (by omega)
      refine ⟨m, by rw [List.length_cons]; omega, ?_⟩
      cases s with
      | nil =>
          have hnil : skipEol [c] = [] := List.eq_nil_of_length_eq_zero (by simpa using hlt)
          rw [hnil, skipSpaces] at h
          obtain rfl := Except.ok.inj h
          exact absurd rfl hne
      | cons d s =>
          rw [List.cons_append, skipSpaces, if_pos hc, nextLine_of_lt (by omega)]
          rw [← skipEol_append] at hm
          exact hm
  | case3 line c s hc hblank ih =>
      rw [List.length_cons] at hn
      obtain ⟨m, hle, hm⟩ := ih h (n := n) (by omega)
      refine ⟨m, by rw [List.length_cons]; omega, ?_⟩
      rw [List.cons_append, skipSpaces, if_neg hc, if_pos hblank, hm]
  | case4 line c s hc hblank =>
      obtain rfl := Except.ok.inj h
      refine ⟨n, by simp, ?_⟩
      rw [List.cons_append, skipSpaces, if_neg hc, if_neg hblank]

theorem stringLoop_nil (delim : Byte) (sb : Bytes) (line : Nat) :
    stringLoop delim sb line [] = .error ⟨.xstr, line⟩ := by
  rw [stringLoop]

theorem stringLoop_append {delim : Byte} {sb v : Bytes} {line : Nat} {s : Bytes} {ls : LexState}
    (h : stringLoop delim sb line s = .ok (v, ls)) (t : Bytes) {n : Nat} (hn : n + s.length < maxLine) :
    ∃ m, stringLoop delim sb n (s ++ t) = .ok (v, ⟨ls.input ++ t, m⟩) := by
  have hnil : ∀ {sb line u}, stringLoop delim sb line u = .ok (v, ls) → u ≠ [] := by
    rintro sb line _ h rfl
    rw [stringLoop_nil] at h
    exact absurd h (by simp)
  fun_induction stringLoop delim sb line s generalizing n with
  | case1 => exact absurd h (by simp)
  | case2 sb line s =>
      obtain ⟨rfl, rfl⟩ := Prod.mk.inj (Except.ok.inj h)
      exact ⟨n, by rw [List.cons_append, stringLoop, if_pos rfl]⟩
  | case3 => exact absurd h (by simp)
  | case4 => exact absurd h (by simp)
  | case5 sb line s hz ls' hspaces hdelim heol ih =>
      obtain ⟨u, rfl⟩ := List.head?_eq_some_iff.mp hz
      rw [List.tail_cons] at hspaces
      rw [List.length_cons, List.length_cons] at hn
      have hle := (skipSpaces_reads hspaces).length_le
      obtain ⟨n', hn', hspaces'⟩ := skipSpaces_append hspaces (hnil h) t (n := n) (by omega)
      obtain ⟨m, hm⟩ := ih h (n := n') (by omega)
      have hz' : (122 :: u ++ t).head? = some 122 := rfl
      refine ⟨m, ?_⟩
      rw [List.cons_append, stringLoop, if_neg hdelim, if_neg heol, if_pos rfl, if_pos hz']
      split
      · next hspaces => exact absurd (hspaces.symm.trans hspaces') (by simp)
      · next hspaces =>
          obtain rfl := Except.ok.inj (hspaces.symm.trans hspaces')
          exact hm
  | case6 sb line s hz hc hdelim heol ih =>
      obtain ⟨next, hnext, h⟩ := bind_eq_ok_iff.mp h
      cases s with
      | nil => exact absurd hc (by simp)
      | cons c s =>
          have hc : isEol c = true := by simpa using hc
          have hlt := length_skipEol_lt hc s
          rw [List.length_cons] at hlt
          rw [List.length_cons, List.length_cons] at hn
          obtain ⟨m, hm⟩ := ih next h (n := n + 1) (by omega)
          refine ⟨m, ?_⟩
          cases s with
          | nil =>
              have hskip : skipEol [c] = [] := List.eq_nil_of_length_eq_zero (by simpa using hlt)
              exact absurd hskip (hnil h)
          | cons d s =>
              have hz' : ¬ (c :: d :: s ++ t).head? = some 122 := hz
              have hc' : (c :: d :: s ++ t).head?.any isEol = true := hc
              rw [← skipEol_append] at hm
              rw [List.cons_append, stringLoop, if_neg hdelim, if_neg heol, if_pos rfl, if_neg hz',
                if_pos hc', nextLine_of_lt (by omega)]
              exact hm
  | case7 => exact absurd h (by simp)
  | case8 => exact absurd h (by simp)
  | case9 sb line s hz hc hne bs rest hescape hdelim heol ih =>
      have hle := (escapeBytes_reads hescape 0).length_le
      rw [List.length_cons] at hn
      obtain ⟨m, hm⟩ := ih h (n := n) (by simp only at hle; omega)
      have hescape' := escapeBytes_append hescape (hnil h) t
      have hhead : (s ++ t).head? = s.head? := by
        cases s with
        | nil => exact absurd rfl hne
        | cons c s => rfl
      refine ⟨m, ?_⟩
      rw [List.cons_append, stringLoop, if_neg hdelim, if_neg heol, if_pos rfl, hhead, if_neg hz,
        if_neg hc, if_neg fun hnil => hne (List.append_eq_nil_iff.mp hnil).1]
      split
      · next hnone => exact absurd (hnone.symm.trans hescape') (by simp)
      · next hsome =>
          obtain ⟨rfl, rfl⟩ := Prod.mk.inj (Option.some.inj (hsome.symm.trans hescape'))
          exact hm
  | case10 sb line c s hdelim heol hbsl ih =>
      rw [List.length_cons] at hn
      obtain ⟨m, hm⟩ := ih h (n := n) (by omega)
      refine ⟨m, ?_⟩
      rw [List.cons_append, stringLoop, if_neg hdelim, if_neg heol, if_neg hbsl]
      exact hm

/-! ## Tokens -/

theorem numberLoop_append {xp c : Byte} {s t : Bytes} (h : Closed (numberLoop xp c s).2 t) :
    numberLoop xp c (s ++ t) = ((numberLoop xp c s).1, (numberLoop xp c s).2 ++ t) := by
  induction s generalizing c with
  | nil =>
      cases t with
      | nil => rfl
      | cons d t =>
          obtain rfl := h.resolve_left (fun hne => hne rfl) d rfl
          have hident : ¬ isIdent nl = true := by decide
          have hnot : ¬ (isIdent nl = true ∨ nl = 46 ∨ (nl = 45 ∨ nl = 43) ∧ c ||| 32 = xp) := by
            rintro (h | h | ⟨h | h, -⟩)
            · exact hident h
            · exact absurd h (by decide)
            · exact absurd h (by decide)
            · exact absurd h (by decide)
          exact if_neg hnot
  | cons d s ih =>
      rw [List.cons_append, numberLoop, numberLoop]
      rw [numberLoop] at h
      split
      · next hd =>
          rw [if_pos hd] at h
          split
          · next hunder =>
              rw [if_pos hunder] at h
              exact ih h
          · next hunder =>
              rw [if_neg hunder] at h
              have hrest : Closed (numberLoop xp d s).2 t := h
              rw [ih hrest]
              rfl
      · rfl

theorem dropUnderscores_append {s t : Bytes} (h : Closed (s.dropWhile (· = 95)) t) :
    (s ++ t).dropWhile (· = (95 : Byte)) = s.dropWhile (· = 95) ++ t := by
  induction s with
  | nil =>
      cases t with
      | nil => rfl
      | cons c t =>
          obtain rfl := h.resolve_left (fun hne => hne rfl) c rfl
          rfl
  | cons c s ih =>
      by_cases hc : c = 95
      · rw [List.dropWhile_cons_of_pos (by simpa using hc)] at h ⊢
        rw [List.cons_append, List.dropWhile_cons_of_pos (by simpa using hc)]
        exact ih h
      · simp [hc]

theorem numberText_append {c : Byte} {s t : Bytes} (h : Closed (numberText (c :: s)).2 t) :
    numberText (c :: s ++ t) = ((numberText (c :: s)).1, (numberText (c :: s)).2 ++ t) := by
  by_cases hzero : c = 48
  · subst hzero
    have htext : ∀ u : Bytes, numberText (48 :: u) = Prod.map (48 :: ·) id
        (numberLoop (if (u.dropWhile (· = 95)).headD 0 ||| 32 = 120 then 112 else 101)
          ((u.dropWhile (· = 95)).headD 0) (u.dropWhile (· = 95))) := fun u => rfl
    rw [htext] at h
    rw [List.cons_append, htext, htext]
    cases hdrop : s.dropWhile (· = 95) with
    | nil =>
        rw [hdrop] at h
        have hend : Closed (s.dropWhile (· = 95)) t := .inr (h.resolve_left (fun hne => hne rfl))
        rw [dropUnderscores_append hend, hdrop, List.nil_append]
        cases t with
        | nil => rfl
        | cons d t =>
            obtain rfl := h.resolve_left (fun hne => hne rfl) d rfl
            exact congrArg (Prod.map (48 :: ·) id) (numberLoop_append (s := []) (.inr (endsHere_nl t)))
    | cons d u =>
        rw [hdrop] at h
        have hend : Closed (s.dropWhile (· = 95)) t := .inl (by rw [hdrop]; exact List.cons_ne_nil _ _)
        rw [dropUnderscores_append hend, hdrop]
        have hrest : Closed (numberLoop (if d ||| 32 = 120 then 112 else 101) d (d :: u)).2 t := h
        exact congrArg (Prod.map (48 :: ·) id) (numberLoop_append hrest)
  · have htext : ∀ u : Bytes, numberText (c :: u) = numberLoop 101 c (c :: u) := by
      intro u
      rw [numberText, if_neg (by simpa using hzero)]
      rfl
    rw [htext] at h
    rw [List.cons_append, htext, htext, ← List.cons_append]
    exact numberLoop_append h

section

variable {strscan : Bytes → Bool} {tok : LexToken} {line n : Nat} {ls : LexState} {t : Bytes}

theorem number_append {saved : Bytes} {c : Byte} {s : Bytes}
    (h : number strscan saved line (c :: s) = .ok (tok, ls)) (hend : Closed ls.input t) (n : Nat) :
    number strscan saved n (c :: s ++ t) = .ok (tok, ⟨ls.input ++ t, n⟩) := by
  rw [number] at h
  split at h
  · next hnum =>
      obtain ⟨rfl, rfl⟩ := Prod.mk.inj (Except.ok.inj h)
      rw [number, numberText_append hend, if_pos hnum]
  · exact absurd h (by simp)

theorem tilde_append {s : Bytes} (h : tilde line s = .ok (tok, ls)) (hend : Closed ls.input t)
    (n : Nat) : tilde n (s ++ t) = .ok (tok, ⟨ls.input ++ t, n⟩) := by
  rw [tilde] at h
  split at h
  · next hhead =>
      obtain ⟨u, rfl⟩ := List.head?_eq_some_iff.mp hhead
      obtain ⟨rfl, rfl⟩ := Prod.mk.inj (Except.ok.inj h)
      rfl
  · next hne =>
      split at h
      · next hhead =>
          obtain ⟨u, rfl⟩ := List.head?_eq_some_iff.mp hhead
          split at h
          · next hhead =>
              obtain ⟨v, rfl⟩ := List.head?_eq_some_iff.mp hhead
              obtain ⟨rfl, rfl⟩ := Prod.mk.inj (Except.ok.inj h)
              rfl
          · exact absurd h (by simp)
      · next hgt =>
          obtain ⟨rfl, rfl⟩ := Prod.mk.inj (Except.ok.inj h)
          rw [tilde, if_neg fun ht => hne ((hend.head? (by decide)).mp ht),
            if_neg fun ht => hgt ((hend.head? (by decide)).mp ht)]

theorem dot_append {s : Bytes} (h : dot strscan line s = .ok (tok, ls)) (hend : Closed ls.input t)
    (n : Nat) : dot strscan n (s ++ t) = .ok (tok, ⟨ls.input ++ t, n⟩) := by
  rw [dot] at h
  split at h
  · next hhead =>
      obtain ⟨u, rfl⟩ := List.head?_eq_some_iff.mp hhead
      have hopen : (46 :: u ++ t).head? = some 46 := rfl
      split at h
      · next hhead =>
          obtain ⟨v, rfl⟩ := List.head?_eq_some_iff.mp hhead
          obtain ⟨rfl, rfl⟩ := Prod.mk.inj (Except.ok.inj h)
          rfl
      · next hne =>
          obtain ⟨rfl, rfl⟩ := Prod.mk.inj (Except.ok.inj h)
          have hnot : ¬ (46 :: u ++ t).tail.head? = some 46 :=
            fun ht => hne ((hend.head? (by decide)).mp ht)
          rw [dot, if_pos hopen, if_neg hnot]
          rfl
  · next hne =>
      split at h
      · next hdigit =>
          cases s with
          | nil => exact absurd hdigit (by simp)
          | cons c s =>
              have hdigit' : (c :: s ++ t).head?.any isDigit = true := hdigit
              have hne' : ¬ (c :: s ++ t).head? = some 46 := hne
              rw [dot, if_neg hne', if_pos hdigit', number_append h hend]
      · next hdigit =>
          obtain ⟨rfl, rfl⟩ := Prod.mk.inj (Except.ok.inj h)
          have hdigit' : ¬ (s ++ t).head?.any isDigit = true := by
            cases s with
            | cons c s => exact hdigit
            | nil =>
                cases t with
                | nil => simp
                | cons c t =>
                    obtain rfl := hend.resolve_left (fun hne => hne rfl) c rfl
                    exact (by decide : ¬ isDigit nl = true)
          rw [dot, if_neg fun ht => hne ((hend.head? (by decide)).mp ht), if_neg hdigit']

theorem find?_head? {os : List (Byte × LexOp)} {s u : Bytes}
    (h : ∀ o ∈ os, u.head? = some o.1 ↔ s.head? = some o.1) :
    os.find? (fun o => u.head? = some o.1) = os.find? fun o => s.head? = some o.1 := by
  induction os with
  | nil => rfl
  | cons o os ih =>
      rw [List.forall_mem_cons] at h
      rw [List.find?_cons, List.find?_cons, ih h.2, decide_eq_decide.mpr h.1]

theorem operator_append {c : Byte} {s : Bytes} (h : operator c line s = (tok, ls))
    (hend : Closed ls.input t) (n : Nat) : operator c n (s ++ t) = (tok, ⟨ls.input ++ t, n⟩) := by
  rw [operator] at h
  split at h
  · next o ho =>
      obtain ⟨rfl, rfl⟩ := Prod.mk.inj h
      have hhead : s.head? = some o.1 := by simpa using List.find?_some ho
      obtain ⟨u, rfl⟩ := List.head?_eq_some_iff.mp hhead
      rw [operator, find?_head? (s := o.1 :: u) (u := o.1 :: u ++ t) (fun _ _ => Iff.rfl), ho]
      rfl
  · next ho =>
      obtain ⟨rfl, rfl⟩ := Prod.mk.inj h
      rw [operator, find?_head? fun o ho => hend.head? (ne_nl_of_mem_operators ho), ho]

theorem bracket_append {s : Bytes} (h : bracket line s = .ok (tok, ls)) (hend : Closed ls.input t)
    (hn : n + s.length < maxLine) :
    ∃ m, bracket n (s ++ t) = .ok (tok, ⟨ls.input ++ t, m⟩) := by
  have hlbr : lbr ≠ nl := by decide
  rw [bracket] at h
  split at h
  · next hsep =>
      obtain ⟨⟨v, ls'⟩, hlong, h⟩ := map_eq_ok h
      obtain ⟨rfl, rfl⟩ := Prod.mk.inj h
      obtain ⟨u, hu⟩ := List.head?_eq_some_iff.mp (head_of_skipeq hsep).1
      have hrest : Closed (skipEqs 0 s).2 t := .inl (by rw [hu]; exact List.cons_ne_nil _ _)
      have hle := length_skipEqs_le 0 s
      rw [hu] at hlong hle
      rw [List.length_cons] at hle
      obtain ⟨m, hm⟩ := longstring_append hlong t (n := n) (by omega)
      refine ⟨m, ?_⟩
      rw [bracket, skipeq_append hlbr hrest, if_pos hsep, savedEqs_append hrest, skipEqs_append hrest,
        hu, hm]
      rfl
  · next hsep =>
      split at h
      · next hone =>
          obtain ⟨rfl, rfl⟩ := Prod.mk.inj (Except.ok.inj h)
          refine ⟨n, ?_⟩
          rw [bracket, skipeq_append hlbr hend, if_neg hsep, if_pos hone, skipEqs_append hend]
      · exact absurd h (by simp)

theorem ident_append {s : Bytes} (h : Closed (s.dropWhile isIdent) t) :
    (s ++ t).takeWhile isIdent = s.takeWhile isIdent ∧
      (s ++ t).dropWhile isIdent = s.dropWhile isIdent ++ t := by
  induction s with
  | nil =>
      cases t with
      | nil => exact ⟨rfl, rfl⟩
      | cons c t =>
          obtain rfl := h.resolve_left (fun hne => hne rfl) c rfl
          exact ⟨rfl, rfl⟩
  | cons c s ih =>
      cases hc : isIdent c with
      | true =>
          rw [List.dropWhile_cons_of_pos hc] at h
          obtain ⟨htake, hdrop⟩ := ih h
          simp [hc, htake, hdrop]
      | false => simp [hc]

theorem token_append {c : Byte} {s : Bytes} (h : token strscan c line s = .ok (tok, ls))
    (hend : Closed ls.input t) (hn : n + s.length < maxLine) :
    ∃ m, token strscan c n (s ++ t) = .ok (tok, ⟨ls.input ++ t, m⟩) := by
  rw [token] at h
  split at h
  · next hident =>
      split at h
      · next hdigit =>
          exact ⟨n, by rw [token, if_pos hident, if_pos hdigit, ← List.cons_append, number_append h hend]⟩
      · next hdigit =>
          obtain ⟨rfl, rfl⟩ := Prod.mk.inj (Except.ok.inj h)
          obtain ⟨htake, hdrop⟩ := ident_append hend
          exact ⟨n, by rw [token, if_pos hident, if_neg hdigit, htake, hdrop]⟩
  · next hident =>
      split at h
      · next hopen =>
          obtain ⟨m, hm⟩ := bracket_append h hend hn
          exact ⟨m, by rw [token, if_neg hident, if_pos hopen, hm]⟩
      · next hopen =>
          split at h
          · next htilde =>
              exact ⟨n, by rw [token, if_neg hident, if_neg hopen, if_pos htilde, tilde_append h hend]⟩
          · next htilde =>
              split at h
              · next hquote =>
                  obtain ⟨⟨v, ls'⟩, hstring, h⟩ := map_eq_ok h
                  obtain ⟨rfl, rfl⟩ := Prod.mk.inj h
                  obtain ⟨m, hm⟩ := stringLoop_append hstring t hn
                  refine ⟨m, ?_⟩
                  rw [token, if_neg hident, if_neg hopen, if_neg htilde, if_pos hquote, hm]
                  rfl
              · next hquote =>
                  split at h
                  · next hdot =>
                      refine ⟨n, ?_⟩
                      rw [token, if_neg hident, if_neg hopen, if_neg htilde, if_neg hquote, if_pos hdot,
                        dot_append h hend]
                  · next hdot =>
                      refine ⟨n, ?_⟩
                      rw [token, if_neg hident, if_neg hopen, if_neg htilde, if_neg hquote, if_neg hdot,
                        operator_append (Except.ok.inj h) hend]

theorem Closed.of_suffix {rest s : Bytes} (h : Closed rest t) (hs : rest <:+ s) : Closed s t :=
  h.imp_left fun hne hnil => hne (List.suffix_nil.mp (hnil ▸ hs))

theorem dropLine_append {s : Bytes} (h : Closed (s.dropWhile (!isEol ·)) t) :
    (s ++ t).dropWhile (!isEol ·) = s.dropWhile (!isEol ·) ++ t := by
  induction s with
  | nil =>
      cases t with
      | nil => rfl
      | cons c t =>
          obtain rfl := h.resolve_left (fun hne => hne rfl) c rfl
          rfl
  | cons c s ih =>
      cases hc : isEol c with
      | true => simp [hc]
      | false =>
          rw [List.dropWhile_cons_of_pos (by simp [hc])] at h ⊢
          rw [List.cons_append, List.dropWhile_cons_of_pos (by simp [hc])]
          exact ih h

theorem skipComment_append {s : Bytes} (h : comment line s = .ok ls) (hend : Closed ls.input t)
    (hn : n + s.length < maxLine) :
    ∃ m, comment n (s ++ t) = .ok ⟨ls.input ++ t, m⟩ := by
  have hlbr : lbr ≠ nl := by decide
  rw [comment] at h
  split at h
  · next hopen =>
      obtain ⟨s, rfl⟩ := List.head?_eq_some_iff.mp hopen
      have hopen' : (lbr :: s ++ t).head? = some lbr := rfl
      have htail : (lbr :: s ++ t).tail = s ++ t := rfl
      rw [List.tail_cons] at h
      split at h
      · next hsep =>
          obtain ⟨⟨v, ls'⟩, hlong, rfl⟩ := map_eq_ok h
          obtain ⟨u, hu⟩ := List.head?_eq_some_iff.mp (head_of_skipeq hsep).1
          have hrest : Closed (skipEqs 0 s).2 t := .inl (by rw [hu]; exact List.cons_ne_nil _ _)
          have hle := length_skipEqs_le 0 s
          rw [hu] at hlong hle
          rw [List.length_cons] at hle hn
          obtain ⟨m, hm⟩ := longstring_append hlong t (n := n) (by omega)
          refine ⟨m, ?_⟩
          rw [comment, if_pos hopen', htail, skipeq_append hlbr hrest, if_pos hsep,
            skipEqs_append hrest, hu, hm]
          rfl
      · next hsep =>
          obtain rfl := Except.ok.inj h
          have hrest : Closed (skipEqs 0 s).2 t := hend.of_suffix (List.dropWhile_suffix _)
          refine ⟨n, ?_⟩
          rw [comment, if_pos hopen', htail, skipeq_append hlbr hrest, if_neg hsep,
            skipEqs_append hrest, dropLine_append hend]
  · next hopen =>
      obtain rfl := Except.ok.inj h
      have hrest : Closed s t := hend.of_suffix (List.dropWhile_suffix _)
      refine ⟨n, ?_⟩
      rw [comment, if_neg fun ht => hopen ((hrest.head? hlbr).mp ht), dropLine_append hend]

/-- **A token is read with more behind it** as it is without, where it does not end at the end of
the input or a newline is next. -/
theorem scan_append {s : Bytes} (h : scan strscan line s = .ok (tok, ls)) (hend : Closed ls.input t)
    (htok : tok = .eof → t = []) (hn : n + s.length < maxLine) :
    ∃ m, scan strscan n (s ++ t) = .ok (tok, ⟨ls.input ++ t, m⟩) := by
  fun_induction scan strscan line s generalizing n with
  | case1 line =>
      obtain ⟨rfl, rfl⟩ := Prod.mk.inj (Except.ok.inj h)
      obtain rfl := htok rfl
      exact ⟨n, by rw [List.append_nil, scan]⟩
  | case2 line c s hc ih =>
      obtain ⟨next, -, h⟩ := bind_eq_ok_iff.mp h
      have hlt := length_skipEol_lt hc s
      rw [List.length_cons] at hn hlt
      obtain ⟨m, hm⟩ := ih next h (n := n + 1) (by omega)
      refine ⟨m, ?_⟩
      have hskip : skipEol (c :: s) ++ t = skipEol (c :: s ++ t) := by
        cases s with
        | cons d s => exact (skipEol_append c d s t).symm
        | nil =>
            -- there is only the end of the input
            have hnil : skipEol [c] = [] := List.eq_nil_of_length_eq_zero (by simpa using hlt)
            rw [hnil, scan] at h
            obtain ⟨rfl, -⟩ := Prod.mk.inj (Except.ok.inj h)
            rw [htok rfl, List.append_nil, List.append_nil]
      rw [hskip] at hm
      rw [List.cons_append, scan_eol strscan hc (by omega)]
      exact hm
  | case3 line c s heol hblank ih =>
      rw [List.length_cons] at hn
      obtain ⟨m, hm⟩ := ih h (n := n) (by omega)
      refine ⟨m, ?_⟩
      rw [List.cons_append, scan, if_neg heol, if_pos hblank]
      exact hm
  | case4 => exact absurd h (by simp)
  | case5 line s hdash ls' hcomment heol hblank ih =>
      obtain ⟨u, rfl⟩ := List.head?_eq_some_iff.mp hdash
      rw [List.tail_cons] at hcomment
      rw [List.length_cons, List.length_cons] at hn
      have hrest : Closed ls'.input t := by
        by_cases hnil : ls'.input = []
        · rw [hnil, scan] at h
          obtain ⟨rfl, -⟩ := Prod.mk.inj (Except.ok.inj h)
          exact .inr (htok rfl ▸ endsHere_nil)
        · exact .inl hnil
      obtain ⟨k, hk⟩ := skipComment_append hcomment hrest (n := n) (by omega)
      obtain ⟨w, hw, -, hle, -⟩ := comment_reads hk
      have hlen := congrArg List.length hw
      simp only [List.length_append] at hlen hle
      obtain ⟨m, hm⟩ := ih h (n := k) (by omega)
      refine ⟨m, ?_⟩
      have hdash' : (45 :: u ++ t).head? = some 45 := rfl
      rw [List.cons_append, scan, if_neg heol, if_neg hblank, if_pos rfl, if_pos hdash']
      split
      · next hbad => exact absurd (hk.symm.trans hbad) (by simp)
      · next hgood =>
          obtain rfl := Except.ok.inj (hk.symm.trans hgood)
          exact hm
  | case6 line s hdash harrow heol hblank =>
      obtain ⟨u, rfl⟩ := List.head?_eq_some_iff.mp harrow
      obtain ⟨rfl, rfl⟩ := Prod.mk.inj (Except.ok.inj h)
      have harrow' : (62 :: u ++ t).head? = some 62 := rfl
      have hdash' : ¬ (62 :: u ++ t).head? = some 45 := hdash
      refine ⟨n, ?_⟩
      rw [List.cons_append, scan, if_neg heol, if_neg hblank, if_pos rfl, if_neg hdash', if_pos harrow']
      rfl
  | case7 line s hdash harrow heol hblank =>
      obtain ⟨rfl, rfl⟩ := Prod.mk.inj (Except.ok.inj h)
      refine ⟨n, ?_⟩
      rw [List.cons_append, scan, if_neg heol, if_neg hblank, if_pos rfl,
        if_neg fun ht => hdash ((hend.head? (by decide)).mp ht),
        if_neg fun ht => harrow ((hend.head? (by decide)).mp ht)]
  | case8 line c s heol hblank hdash =>
      rw [List.length_cons] at hn
      obtain ⟨m, hm⟩ := token_append h hend (n := n) (by omega)
      refine ⟨m, ?_⟩
      rw [List.cons_append, scan, if_neg heol, if_neg hblank, if_neg hdash]
      exact hm

/-! ## Every line is as good as another -/

theorem scan_line {s : Bytes} (h : scan strscan line s = .ok (tok, ls)) (hn : n + s.length < maxLine) :
    ∃ m, scan strscan n s = .ok (tok, ⟨ls.input, m⟩) := by
  have hnil := scan_append h (t := []) (.inr endsHere_nil) (fun _ => rfl) hn
  rwa [List.append_nil, List.append_nil] at hnil

theorem reading_scan {s : Bytes} (hline : line + s.length < maxLine) (hn : n + s.length < maxLine) :
    reading (scan strscan line s) = reading (scan strscan n s) := by
  cases h : scan strscan line s with
  | ok r =>
      obtain ⟨m, hm⟩ := scan_line h hn
      rw [hm]
      rfl
  | error e =>
      cases h' : scan strscan n s with
      | error e' => rfl
      | ok r =>
          obtain ⟨m, hm⟩ := scan_line h' hline
          exact absurd (h.symm.trans hm) (by simp)

/-- The end of a line in front is skipped.  A second one with it is nothing else. -/
theorem reading_scan_eol {c : Byte} (hc : isEol c = true) {s : Bytes}
    (hline : line + s.length + 1 < maxLine) (hn : n + s.length < maxLine) :
    reading (scan strscan line (c :: s)) = reading (scan strscan n s) := by
  induction hlen : s.length using Nat.strong_induction_on generalizing c s line n with
  | _ k ih =>
      have hstep : reading (scan strscan line (c :: s)) =
          reading (scan strscan (line + 1) (skipEol (c :: s))) := by
        rw [scan_eol strscan hc (by omega)]
      rw [hstep]
      obtain ⟨hskip, -⟩ | ⟨d, t, rfl, hd, hskip, -⟩ := skipEol_cases hc s
      · rw [hskip]
        exact reading_scan (by omega) hn
      · rw [List.length_cons] at hline hn hlen
        rw [hskip]
        exact (ih t.length (by omega) hd (by omega) (by omega) rfl).symm

/-- **Blanks and comments before a newline are skipped.** -/
theorem scan_eof_append {s : Bytes} (h : scan strscan line s = .ok (.eof, ls))
    (hn : n + s.length + t.length + 1 < maxLine) {k : Nat} (hk : k + t.length < maxLine) :
    reading (scan strscan n (s ++ nl :: t)) = reading (scan strscan k t) := by
  have hnl : isEol nl = true := by decide
  fun_induction scan strscan line s generalizing n with
  | case1 => exact reading_scan_eol hnl (by rw [List.length_nil] at hn; omega) hk
  | case2 line c s hc ih =>
      obtain ⟨next, -, h⟩ := bind_eq_ok_iff.mp h
      have hlt := length_skipEol_lt hc s
      rw [List.length_cons] at hn hlt
      cases s with
      | nil =>
          rw [List.length_nil] at hn
          have hfirst : reading (scan strscan n (c :: nl :: t)) = reading (scan strscan n (nl :: t)) :=
            reading_scan_eol hc (by rw [List.length_cons]; omega) (by rw [List.length_cons]; omega)
          exact hfirst.trans (reading_scan_eol hnl (by omega) hk)
      | cons d s =>
          rw [List.cons_append, scan_eol strscan hc (by omega)]
          refine (congrArg (fun u => reading (scan strscan (n + 1) u)) (skipEol_append c d s _)).trans ?_
          exact ih next h (by omega)
  | case3 line c s heol hblank ih =>
      rw [List.length_cons] at hn
      rw [List.cons_append, scan, if_neg heol, if_pos hblank]
      exact ih h (by omega)
  | case4 => exact absurd h (by simp)
  | case5 line s hdash ls' hcomment heol hblank ih =>
      obtain ⟨u, rfl⟩ := List.head?_eq_some_iff.mp hdash
      rw [List.tail_cons] at hcomment
      rw [List.length_cons, List.length_cons] at hn
      obtain ⟨m, hm⟩ := skipComment_append hcomment (.inr (endsHere_nl t)) (n := n) (by omega)
      obtain ⟨w, hw, -, hle, -⟩ := comment_reads hm
      have hlen := congrArg List.length hw
      simp only [List.length_append] at hlen hle
      have hdash' : (45 :: u ++ nl :: t).head? = some 45 := rfl
      rw [List.cons_append, scan, if_neg heol, if_neg hblank, if_pos rfl, if_pos hdash']
      split
      · next hbad => exact absurd (hm.symm.trans hbad) (by simp)
      · next hgood =>
          obtain rfl := Except.ok.inj (hm.symm.trans hgood)
          exact ih h (by simp only; omega)
  | case6 => exact absurd h (by simp)
  | case7 => exact absurd h (by simp)
  | case8 line c s heol =>
      have hne : c ≠ nl := fun hc => heol (hc ▸ hnl)
      exact absurd rfl (token_reads hne h).1

end

/-! ## The tokens -/

section

variable (strscan : Bytes → Bool)

/-- The tokens of a chunk whose first line is `line`. -/
def streamFrom (line : Nat) (s : Bytes) : Option (List LexToken) :=
  (tokens strscan line s).toOption.map (List.map Prod.fst)

/-- The tokens of a chunk. -/
def stream (s : Bytes) : Option (List LexToken) := streamFrom strscan 1 s

variable {strscan} {n : Nat}

theorem tokens_error {s : Bytes} {e : LexError} (h : scan strscan n s = .error e) :
    tokens strscan n s = .error e := by
  rw [tokens]
  split
  · next h' => rw [Except.error.inj (h.symm.trans h')]
  · next h' => exact absurd (h.symm.trans h') (by simp)

theorem tokens_ok {s : Bytes} {tok : LexToken} {ls : LexState} (h : scan strscan n s = .ok (tok, ls)) :
    tokens strscan n s =
      if tok = .eof then .ok [] else (tokens strscan ls.line ls.input).map ((tok, ls) :: ·) := by
  rw [tokens]
  split
  · next h' => exact absurd (h.symm.trans h') (by simp)
  · next h' =>
      obtain ⟨rfl, rfl⟩ := Prod.mk.inj (Except.ok.inj (h.symm.trans h'))
      split <;> rfl

theorem streamFrom_error {s : Bytes} {e : LexError} (h : scan strscan n s = .error e) :
    streamFrom strscan n s = none := by
  rw [streamFrom, tokens_error h]
  rfl

theorem streamFrom_ok {s : Bytes} {tok : LexToken} {ls : LexState}
    (h : scan strscan n s = .ok (tok, ls)) :
    streamFrom strscan n s =
      if tok = .eof then some [] else (streamFrom strscan ls.line ls.input).map (tok :: ·) := by
  rw [streamFrom, tokens_ok h]
  split
  · rfl
  · rw [streamFrom]
    cases tokens strscan ls.line ls.input <;> rfl

/-- What is left behind a token is shorter, and there are lines enough for it. -/
theorem rest_of_scan {s : Bytes} {tok : LexToken} {ls : LexState} (hs : n + s.length < maxLine)
    (h : scan strscan n s = .ok (tok, ls)) (htok : tok ≠ .eof) :
    ls.input.length < s.length ∧ ls.line + ls.input.length < maxLine := by
  obtain ⟨⟨w, hw, -, hle, -⟩, ⟨heof, -⟩ | ⟨-, hto⟩⟩ := scan_reads h
  · exact absurd heof htok
  · have hlen := congrArg List.length hw
    rw [List.length_append] at hlen
    exact ⟨hto.length_lt, by omega⟩

/-- The tokens are the same from every line on. -/
theorem streamFrom_eq {line : Nat} {s : Bytes} (hline : line + s.length < maxLine)
    (hn : n + s.length < maxLine) : streamFrom strscan line s = streamFrom strscan n s := by
  induction hlen : s.length using Nat.strong_induction_on generalizing s line n with
  | _ k ih =>
      cases h : scan strscan line s with
      | error e =>
          cases h' : scan strscan n s with
          | error e' => rw [streamFrom_error h, streamFrom_error h']
          | ok r =>
              obtain ⟨m, hm⟩ := scan_line h' hline
              exact absurd (h.symm.trans hm) (by simp)
      | ok r =>
          obtain ⟨tok, ls⟩ := r
          obtain ⟨m, hm⟩ := scan_line h hn
          rw [streamFrom_ok h, streamFrom_ok hm]
          by_cases htok : tok = .eof
          · rw [if_pos htok, if_pos htok]
          · obtain ⟨hlt, hbound⟩ := rest_of_scan hline h htok
            obtain ⟨-, hbound'⟩ := rest_of_scan hn hm htok
            rw [if_neg htok, if_neg htok, ih ls.input.length (hlen ▸ hlt) hbound hbound' rfl]

/-- The first token of a chunk, and those behind it. -/
theorem stream_step {s : Bytes} (hs : s.length + 1 < maxLine) :
    stream strscan s =
      (reading (scan strscan 1 s)).bind fun r =>
        if r.1 = .eof then some [] else (stream strscan r.2).map (r.1 :: ·) := by
  have hline : 1 + s.length < maxLine := by omega
  rw [stream]
  cases h : scan strscan 1 s with
  | error e => exact streamFrom_error h
  | ok r =>
      obtain ⟨tok, ls⟩ := r
      rw [streamFrom_ok h, reading_ok, Option.bind_some]
      by_cases htok : tok = .eof
      · rw [if_pos htok, if_pos htok]
      · obtain ⟨hlt, hbound⟩ := rest_of_scan hline h htok
        have hfirst : streamFrom strscan ls.line ls.input = stream strscan ls.input :=
          streamFrom_eq hbound (by omega)
        rw [if_neg htok, if_neg htok, hfirst]

theorem stream_nil : stream strscan [] = some [] := by
  rw [stream_step (by decide), scan]
  rfl

/-- An end of a line in front is skipped. -/
theorem stream_nl {t : Bytes} (ht : t.length + 2 < maxLine) :
    stream strscan (nl :: t) = stream strscan t := by
  have hnl : isEol nl = true := by decide
  rw [stream_step (by rw [List.length_cons]; omega), stream_step (by omega),
    reading_scan_eol hnl (n := 1) (by omega) (by omega)]

/-- **The tokens up to a newline come first**, if they are tokens without what is behind it. -/
theorem stream_append {s t : Bytes} {ts : List LexToken} (h : stream strscan s = some ts)
    (hlen : s.length + t.length + 2 < maxLine) :
    stream strscan (s ++ nl :: t) = (stream strscan t).map (ts ++ ·) := by
  induction hk : s.length using Nat.strong_induction_on generalizing s ts with
  | _ k ih =>
      have hline : 1 + s.length < maxLine := by omega
      have hboth : (s ++ nl :: t).length + 1 < maxLine := by
        rw [List.length_append, List.length_cons]
        omega
      rw [stream_step (by omega)] at h
      rw [stream_step hboth]
      cases hscan : scan strscan 1 s with
      | error e =>
          rw [hscan] at h
          exact absurd h nofun
      | ok r =>
          obtain ⟨tok, ls⟩ := r
          rw [hscan, reading_ok, Option.bind_some] at h
          by_cases htok : tok = .eof
          · subst htok
            rw [if_pos rfl] at h
            obtain rfl := Option.some.inj h
            rw [scan_eof_append hscan (by omega) (k := 1) (by omega), ← stream_step (by omega)]
            cases stream strscan t <;> rfl
          · rw [if_neg htok] at h
            obtain ⟨us, hus, rfl⟩ := Option.map_eq_some_iff.mp h
            obtain ⟨hlt, -⟩ := rest_of_scan hline hscan htok
            obtain ⟨m, hm⟩ := scan_append hscan (.inr (endsHere_nl t)) (absurd · htok) hline
            rw [hm, reading_ok, Option.bind_some, if_neg htok,
              ih ls.input.length (by omega) hus (by simp only; omega) rfl, Option.map_map]
            rfl

/-- A token that is read on its first line. -/
theorem stream_token {c : Byte} {s rest : Bytes} {tok : LexToken} (hblank : isBlank c = false)
    (hdash : c ≠ 45) (h : token strscan c 1 s = .ok (tok, ⟨rest, 1⟩)) (htok : tok ≠ .eof)
    (hlen : s.length + 2 < maxLine) :
    stream strscan (c :: s) = (stream strscan rest).map (tok :: ·) := by
  rw [stream_step (by rw [List.length_cons]; omega), scan_token strscan hblank hdash, h, reading_ok, Option.bind_some, if_neg htok]

/-- The tokens that `lj_parse` is given of a chunk. -/
def loadedTokens (strscan : Bytes → Bool) (s : Bytes) : Option (List LexToken) :=
  match lexSetup s with
  | .ok (.source ls) => streamFrom strscan ls.line ls.input
  | _ => none

/-- The first byte says that nothing is skipped. -/
theorem loadedTokens_eq {s : Bytes} (h : ∀ c ∈ s.head?, c ≠ 0xef ∧ c ≠ 35 ∧ c ≠ 27) :
    loadedTokens strscan s = stream strscan s := by
  have hbom : ¬ [0xef, 0xbb, 0xbf] <+: s := by
    rintro ⟨t, rfl⟩
    exact (h 0xef rfl).1 rfl
  have hhash : s.head? ≠ some 35 := fun hs => (h 35 hs).2.1 rfl
  have hdump : s.head? ≠ some 27 := fun hs => (h 27 hs).2.2 rfl
  have hsetup : lexSetup s = .ok (.source ⟨s, 1⟩) := by
    simp [lexSetup, setupAt, hbom, hhash, hdump]
  rw [loadedTokens, hsetup]
  rfl

end

end Tmg.Lua
