/-
# `Tmg.Tokens` — the chunk as LuaJIT reads it

`tmg_expand` writes bytes; what it means by them are tokens: for each text those of a call of
`tmg.print` with a string, and those of the code blocks as they stand in the template.

    meant      the tokens of the segments, one segment after the other       (`meantTokens`)
    read       the tokens that the chunk is loaded as                        (`loadedTokens`)

The two are the same exactly when every text is one that a long string of its level holds
(`ReadsWhole`): `chunk_tokens_iff`.  In that the code blocks are read between what was written
around them as they are read alone; that is `stream_append`, a newline standing behind each.

The lines are counted as the line map counts them, so a token of a code block is on a line that
the map sends to its own line of the template: `token_line`.
-/
import Tmg.Statement
import Tmg.LineMap
import Tmg.Lua.Kind

namespace Tmg

open Lib Lua

/-! ## The tokens that are meant -/

/-- The tokens of the statement that prints a text. -/
def printTokens (text : Bytes) : List LexToken :=
  if text = [] then []
  else
    [.name (ascii "tmg"), .char 46, .name (ascii "print"), .char 40, .string (luaValue text), .char 41]

/-- The tokens of some segments, the first one being of mode `code`, if every code has tokens. -/
def meantTokens (strscan : Bytes → Bool) : Bool → List Bytes → Option (List LexToken)
  | _, [] => some []
  | false, text :: segs => (meantTokens strscan true segs).map (printTokens text ++ ·)
  | true, code :: segs =>
      (stream strscan code).bind fun ts => (meantTokens strscan false segs).map (ts ++ ·)

/-- The texts among some segments, the first one being of mode `code`. -/
def textSegments : Bool → List Bytes → List Bytes
  | _, [] => []
  | false, text :: segs => text :: textSegments true segs
  | true, _ :: segs => textSegments false segs

/-- A text that its literal holds: it does not end in the stem of the mark, and LuaJIT counts as
many `=` as the mark has. -/
def ReadsWhole (text : Bytes) : Prop := ¬ EndsInStem text ∧ maxEquals text ≤ 0x20000000

/-! ## The literal of a text -/

theorem ne_rbr_of_isEol {c : Byte} (hc : isEol c = true) : c ≠ rbr := by
  rintro rfl
  exact absurd hc (by decide)

/-- The ends of lines are no `]`. -/
theorem count_skipEol : ∀ s : Bytes, (skipEol s).count rbr = s.count rbr
  | [] => rfl
  | [c] => by
      rw [skipEol]
      split
      · next hc => simp [ne_rbr_of_isEol hc]
      · rfl
  | c :: d :: s => by
      rw [skipEol]
      split
      · next hc =>
          split
          · next hd => simp [ne_rbr_of_isEol hc, ne_rbr_of_isEol hd.1]
          · simp [ne_rbr_of_isEol hc]
      · rfl

theorem count_normEol : ∀ s : Bytes, (normEol s).count rbr = s.count rbr
  | [] => rfl
  | [c] => by
      rw [normEol]
      split
      · next hc => simp [ne_rbr_of_isEol hc, ne_rbr_of_isEol (c := nl) (by decide)]
      · rfl
  | c :: d :: s => by
      have hnl : nl ≠ rbr := by decide
      have hrest := count_normEol s
      have htail := count_normEol (d :: s)
      rw [normEol]
      split
      · next hc =>
          split
          · next hd => simp [hnl, ne_rbr_of_isEol hc, ne_rbr_of_isEol hd.1, hrest]
          · simp [hnl, ne_rbr_of_isEol hc, htail]
      · rw [List.count_cons, List.count_cons, htail]

/-- A literal that is not read whole has another value: there is a `]` less in it. -/
theorem luaValue_ne {n : Nat} {t r : Bytes} {p : Bytes × Bytes}
    (h : cutAt (closing rbr eqs n) (t ++ (closing rbr eqs n ++ r)) = some p) (hne : p ≠ (t, r)) :
    luaValue p.1 ≠ luaValue t := by
  have hcount : ∀ s, (luaValue s).count rbr = s.count rbr := fun s => by
    rw [luaValue, count_normEol, count_skipEol]
  obtain ⟨u, hu⟩ := cutAt_prefix_of_occurrence r h
  have hsplit := cutAt_eq_some h
  rw [← hu, List.append_assoc, List.append_cancel_left_eq] at hsplit
  intro heq
  have hsame := congrArg (List.count rbr) heq
  rw [hcount, hcount, ← hu, List.count_append] at hsame
  cases u with
  | nil =>
      rw [List.nil_append, List.append_cancel_left_eq] at hsplit
      rw [List.append_nil] at hu
      exact hne (Prod.ext hu hsplit.symm)
  | cons c u =>
      obtain ⟨rfl, -⟩ := List.cons.inj hsplit
      rw [List.count_cons_self] at hsame
      omega

/-- The count stops at 2^29. -/
theorem skipEqs_long {n : Nat} (s : Bytes) :
    ∀ {count : Nat}, count ≤ 0x20000000 → 0x20000000 < count + n →
      (skipEqs count (List.replicate n eqs ++ s)).1 = 0x20000000 ∧
        (skipEqs count (List.replicate n eqs ++ s)).2.head? = some eqs := by
  induction n with
  | zero =>
      intro count hle hlt
      omega
  | succ n ih =>
      intro count hle hlt
      rw [List.replicate_succ, List.cons_append, skipEqs]
      split
      · next hcount => exact ih hcount.2 (by omega)
      · next hcount =>
          have hfull : ¬ count < 0x20000000 := fun h => hcount ⟨rfl, h⟩
          exact ⟨by simp only; omega, rfl⟩

/-- No token begins with a bracket of a higher level than that. -/
theorem bracket_long {n : Nat} (hn : 0x20000000 < n) (line : Nat) (s : Bytes) :
    bracket line (List.replicate n eqs ++ s) = .error ⟨.xldelim, line⟩ := by
  obtain ⟨hcount, hhead⟩ := skipEqs_long (n := n) s (Nat.zero_le _) (by omega)
  have hlbr : ¬ some eqs = some lbr := by decide
  have hsep : skipeq lbr (List.replicate n eqs ++ s) = -0x20000000 - 1 := by
    rw [skipeq, hhead, hcount, if_neg hlbr]
    rfl
  rw [bracket, hsep, if_neg (by decide), if_neg (by decide)]

/-! ## The statement of a text -/

section

variable {strscan : Bytes → Bool}

/-- The tokens in front of the literal. -/
theorem stream_call {t : Bytes} (hlen : t.length + 12 < maxLine) :
    stream strscan (ascii "tmg.print(" ++ t) =
      (stream strscan t).map
        ([.name (ascii "tmg"), .char 46, .name (ascii "print"), .char 40] ++ ·) := by
  have hname : token strscan 116 1 (ascii "mg.print(" ++ t) =
      .ok (.name (ascii "tmg"), ⟨ascii ".print(" ++ t, 1⟩) := rfl
  have hdot : token strscan 46 1 (ascii "print(" ++ t) = .ok (.char 46, ⟨ascii "print(" ++ t, 1⟩) := rfl
  have hprint : token strscan 112 1 (ascii "rint(" ++ t) =
      .ok (.name (ascii "print"), ⟨ascii "(" ++ t, 1⟩) := rfl
  have hopen : token strscan 40 1 t = .ok (.char 40, ⟨t, 1⟩) := rfl
  have h₁ := stream_token (by decide) (by decide) hname (by simp) (by simp [ascii]; omega)
  have h₂ := stream_token (by decide) (by decide) hdot (by simp) (by simp [ascii]; omega)
  have h₃ := stream_token (by decide) (by decide) hprint (by simp) (by simp [ascii]; omega)
  have h₄ := stream_token (by decide) (by decide) hopen (by simp) (by omega)
  refine h₁.trans ?_
  rw [show ascii ".print(" ++ t = 46 :: (ascii "print(" ++ t) from rfl, h₂,
    show ascii "print(" ++ t = 112 :: (ascii "rint(" ++ t) from rfl, h₃,
    show ascii "(" ++ t = 40 :: t from rfl, h₄]
  simp only [Option.map_map]
  rfl

/-- **The literal of a text is its value, and what stands behind it is read on its own, exactly when
it holds the text.** -/
theorem stream_literal_iff {text r : Bytes} {ts : List LexToken}
    (hlen : (longLiteral text ++ r).length + 1 < maxLine) :
    stream strscan (longLiteral text ++ r) = some (.string (luaValue text) :: ts) ↔
      ReadsWhole text ∧ stream strscan r = some ts := by
  have hlit : longLiteral text ++ r = lbr :: (List.replicate (maxEquals text) eqs ++
      lbr :: (text ++ (closing rbr eqs (maxEquals text) ++ r))) := by
    simp [longLiteral]
  have hcut := (maxEquals_isLevel text).cutAt_iff rbr_ne_eqs (r := r)
  rw [← endsInStem_iff] at hcut
  rw [stream_step hlen, hlit, scan_bracket]
  rw [hlit] at hlen
  simp only [List.length_cons, List.length_append, List.length_replicate] at hlen
  by_cases hn : maxEquals text ≤ 0x20000000
  · rw [bracket_reading hn (by simp only [List.length_append]; omega)]
    cases hp : cutAt (closing rbr eqs (maxEquals text))
        (text ++ (closing rbr eqs (maxEquals text) ++ r)) with
    | none =>
        rw [hp] at hcut
        exact iff_of_false (by simp) fun h => absurd (hcut.mpr h.1.1) (by simp)
    | some p =>
        rw [hp] at hcut
        rw [Option.map_some, Option.bind_some, if_neg (by simp), Option.map_eq_some_iff]
        constructor
        · rintro ⟨us, hus, heq⟩
          obtain ⟨hvalue, rfl⟩ := List.cons.inj heq
          have hwhole : p = (text, r) := by
            by_contra hne
            exact luaValue_ne hp hne (LexToken.string.inj hvalue)
          subst hwhole
          exact ⟨⟨hcut.mp rfl, hn⟩, hus⟩
        · rintro ⟨⟨hstem, -⟩, hr⟩
          obtain rfl := Option.some.inj (hcut.mpr hstem)
          exact ⟨ts, hr, rfl⟩
  · rw [bracket_long (by omega)]
    exact iff_of_false (by simp) fun h => hn h.1.2

/-- So it is with the statement. -/
theorem stream_print_iff {text rest : Bytes} {ts : List LexToken}
    (hlen : (printStatement text ++ rest).length + 2 < maxLine) :
    stream strscan (printStatement text ++ rest) = some (printTokens text ++ ts) ↔
      (text ≠ [] → ReadsWhole text) ∧ stream strscan rest = some ts := by
  by_cases ht : text = []
  · simp [printStatement, printTokens, ht]
  · have hprint : printStatement text ++ rest =
        ascii "tmg.print(" ++ (longLiteral text ++ (41 :: nl :: rest)) := by
      simp [printStatement, ht, ascii]
      rfl
    have hclose : token strscan 41 1 (nl :: rest) = .ok (.char 41, ⟨nl :: rest, 1⟩) := rfl
    rw [hprint] at hlen ⊢
    simp only [List.length_append, List.length_cons] at hlen
    have hcall : (ascii "tmg.print(").length = 10 := rfl
    rw [stream_call (by simp only [List.length_append, List.length_cons]; omega), printTokens, if_neg ht,
      Option.map_eq_some_iff]
    have hbehind : stream strscan (41 :: nl :: rest) = (stream strscan rest).map (.char 41 :: ·) := by
      rw [stream_token (by decide) (by decide) hclose (by simp) (by rw [List.length_cons]; omega),
        stream_nl (by omega)]
    have hiff : stream strscan (longLiteral text ++ (41 :: nl :: rest)) =
          some (.string (luaValue text) :: .char 41 :: ts) ↔
        ReadsWhole text ∧ stream strscan (41 :: nl :: rest) = some (.char 41 :: ts) :=
      stream_literal_iff (by simp only [List.length_append, List.length_cons]; omega)
    rw [hbehind, Option.map_eq_some_iff] at hiff
    constructor
    · rintro ⟨us, hus, heq⟩
      obtain rfl : us = .string (luaValue text) :: .char 41 :: ts := by simpa using heq
      obtain ⟨hwhole, vs, hvs, heq⟩ := hiff.mp hus
      obtain ⟨-, rfl⟩ := List.cons.inj heq
      exact ⟨fun _ => hwhole, hvs⟩
    · rintro ⟨hwhole, hrest⟩
      exact ⟨_, hiff.mpr ⟨hwhole ht, ts, hrest, rfl⟩, rfl⟩

/-! ## The chunk -/

theorem compose_text (text : Bytes) (segs : List Bytes) :
    ∃ front, (front = [] ∨ front = [nl]) ∧
      compose false (text :: segs) = front ++ (printStatement text ++ compose true segs) := by
  cases segs with
  | nil => exact ⟨[], .inl rfl, by simp [compose, emitLast]⟩
  | cons seg segs => exact ⟨[nl], .inr rfl, by simp [compose_cons_cons, emitEnded]⟩

/-- The chunk of some segments is read as it is meant if every text is read whole. -/
theorem stream_compose_iff :
    ∀ {code : Bool} {segs : List Bytes} {ts : List LexToken},
      meantTokens strscan code segs = some ts → (compose code segs).length + 2 < maxLine →
        (stream strscan (compose code segs) = some ts ↔
          ∀ text ∈ textSegments code segs, text ≠ [] → ReadsWhole text)
  | code, [], ts, hmeant, hlen => by
      have hts : meantTokens strscan code [] = some [] := by cases code <;> rfl
      obtain rfl := Option.some.inj (hts.symm.trans hmeant)
      rw [compose, stream_nil]
      cases code <;> simp [textSegments]
  | true, [code], ts, hmeant, _ => by
      obtain ⟨us, hus, hmeant⟩ := Option.bind_eq_some_iff.mp hmeant
      obtain rfl : us = ts := by simpa [meantTokens] using hmeant
      have hcode : compose true [code] = code := rfl
      rw [hcode, hus]
      simp [textSegments]
  | true, seg :: seg' :: segs, ts, hmeant, hlen => by
      obtain ⟨us, hus, hmeant⟩ := Option.bind_eq_some_iff.mp hmeant
      obtain ⟨vs, hvs, rfl⟩ := Option.map_eq_some_iff.mp hmeant
      have hcode : compose true (seg :: seg' :: segs) = seg ++ nl :: compose false (seg' :: segs) := by
        simp [compose_cons_cons, emitEnded]
      rw [hcode, List.length_append, List.length_cons] at hlen
      rw [hcode, stream_append hus (by omega), textSegments, ← stream_compose_iff hvs (by omega),
        Option.map_eq_some_iff]
      constructor
      · rintro ⟨ws, hws, heq⟩
        rwa [← List.append_cancel_left heq]
      · exact fun h => ⟨vs, h, rfl⟩
  | false, text :: segs, ts, hmeant, hlen => by
      obtain ⟨us, hus, rfl⟩ := Option.map_eq_some_iff.mp hmeant
      obtain ⟨front, hfront, hsplit⟩ := compose_text text segs
      rw [hsplit, List.length_append] at hlen
      rw [List.length_append] at hlen
      have hskip : stream strscan (front ++ (printStatement text ++ compose true segs)) =
          stream strscan (printStatement text ++ compose true segs) := by
        rcases hfront with rfl | rfl
        · rfl
        · rw [List.length_singleton] at hlen
          have hrest : (printStatement text ++ compose true segs).length + 2 < maxLine := by
            rw [List.length_append]
            omega
          exact stream_nl hrest
      rw [hsplit, hskip, stream_print_iff (by rw [List.length_append]; omega), textSegments,
        List.forall_mem_cons, stream_compose_iff hus (by omega)]

/-- The chunk begins with a newline or a call. -/
theorem head?_chunk (sep : CString) (tpl : Bytes) :
    ∀ c ∈ (chunk sep tpl).head?, c = nl ∨ c = 116 := by
  obtain ⟨text, segs, hsegs⟩ := List.exists_cons_of_ne_nil
    (segmentsFrom_ne_nil sep Scan.init.core [] tpl)
  rw [chunk_eq_compose, segments, hsegs]
  intro c hc
  cases segs with
  | cons seg segs =>
      have hnl : c = nl := by simpa [compose_cons_cons, emitEnded, eq_comm] using hc
      exact .inl hnl
  | nil =>
      rw [compose, emitLast, if_neg Bool.false_ne_true, printStatement] at hc
      split at hc
      · exact absurd hc (by simp)
      · exact .inr (Option.some.inj hc).symm

/-- So nothing of it is skipped, and it is not taken for bytecode. -/
theorem loadedTokens_chunk (sep : CString) (tpl : Bytes) :
    loadedTokens strscan (chunk sep tpl) = stream strscan (compose false (segments sep tpl)) := by
  have hhead : ∀ c ∈ (chunk sep tpl).head?, c ≠ 0xef ∧ c ≠ 35 ∧ c ≠ 27 := by
    intro c hc
    rcases head?_chunk sep tpl c hc with rfl | rfl <;> decide
  rw [loadedTokens_eq hhead, chunk_eq_compose]

/-- **A chunk is loaded as the tokens that are meant exactly when every text is one that its literal
holds.**  Nothing of it is skipped at its beginning. -/
theorem chunk_tokens_iff (strscan : Bytes → Bool) (sep : CString) (tpl : Bytes) {ts : List LexToken}
    (hmeant : meantTokens strscan false (segments sep tpl) = some ts)
    (hlen : (chunk sep tpl).length + 2 < maxLine) :
    loadedTokens strscan (chunk sep tpl) = some ts ↔
      ∀ text ∈ textSegments false (segments sep tpl), text ≠ [] → ReadsWhole text := by
  rw [chunk_eq_compose] at hlen
  rw [loadedTokens_chunk, stream_compose_iff hmeant hlen]

/-- In the template `a%x%b` a call, the name `x`, and a call are meant. -/
theorem meantTokens_name :
    meantTokens (fun _ => false) false
        (segments (CString.single 37 (by decide)) (ascii "a%x%b")) =
      some (printTokens (ascii "a") ++ .name (ascii "x") :: printTokens (ascii "b")) := by
  have hsegments : segments (CString.single 37 (by decide)) (ascii "a%x%b") =
      [ascii "a", ascii "x", ascii "b"] := by decide
  have htoken : token (fun _ => false) 120 1 [] = .ok (.name (ascii "x"), ⟨[], 1⟩) := rfl
  have hname : stream (fun _ => false) (ascii "x") = some [.name (ascii "x")] :=
    (stream_token (by decide) (by decide) htoken (by simp) (by decide)).trans (by rw [stream_nil]; rfl)
  rw [hsegments, meantTokens, meantTokens, meantTokens, hname]
  rfl

theorem readsWhole_name :
    ∀ text ∈ textSegments false (segments (CString.single 37 (by decide)) (ascii "a%x%b")),
      text ≠ [] → ReadsWhole text := by
  have htexts : textSegments false (segments (CString.single 37 (by decide)) (ascii "a%x%b")) =
      [ascii "a", ascii "b"] := by decide
  rw [htexts]
  intro text htext _
  rcases List.mem_pair.mp htext with rfl | rfl <;>
    exact ⟨not_endsInStem (by decide) (by decide), by decide⟩

/-- These are its tokens. -/
theorem chunk_tokens_name :
    loadedTokens (fun _ => false) (chunk (CString.single 37 (by decide)) (ascii "a%x%b")) =
      some (printTokens (ascii "a") ++ .name (ascii "x") :: printTokens (ascii "b")) :=
  (chunk_tokens_iff (fun _ => false) (CString.single 37 (by decide)) (ascii "a%x%b") meantTokens_name
    (by decide)).mpr readsWhole_name

/-- Segments in front of a text have their tokens in front of its statement. -/
theorem meantTokens_split {text : Bytes} {segs : List Bytes} :
    ∀ {done : List Bytes} {ts : List LexToken}, Even done.length →
      meantTokens strscan false (done ++ text :: segs) = some ts →
        ∃ us vs, meantTokens strscan true segs = some vs ∧ ts = us ++ (printTokens text ++ vs)
  | [], ts, _, h => by
      obtain ⟨vs, hvs, rfl⟩ := Option.map_eq_some_iff.mp h
      exact ⟨[], vs, hvs, rfl⟩
  | [_], _, heven, _ => absurd heven Nat.not_even_one
  | seg :: code :: done, ts, heven, h => by
      rw [List.length_cons, List.length_cons, Nat.even_add_one, Nat.even_add_one, not_not] at heven
      obtain ⟨rs, hrs, rfl⟩ := Option.map_eq_some_iff.mp h
      obtain ⟨cs, -, hrs⟩ := Option.bind_eq_some_iff.mp hrs
      obtain ⟨ws, hws, rfl⟩ := Option.map_eq_some_iff.mp hrs
      obtain ⟨us, vs, hvs, rfl⟩ := meantTokens_split heven hws
      exact ⟨printTokens seg ++ (cs ++ us), vs, hvs, by simp⟩

/-- The texts behind a segment are texts of the template. -/
theorem textSegments_subset (text : Bytes) (segs : List Bytes) :
    ∀ {done : List Bytes}, Even done.length →
      textSegments true segs ⊆ textSegments false (done ++ text :: segs)
  | [], _ => List.subset_cons_self _ _
  | [_], h => absurd h Nat.not_even_one
  | _ :: _ :: done, h => by
      rw [List.length_cons, List.length_cons, Nat.even_add_one, Nat.even_add_one, not_not] at h
      exact List.Subset.trans (textSegments_subset text segs h) (List.subset_cons_self _ _)

/-- **Behind the call of a text comes the token that the scan by kinds finds there**: among the
tokens that a chunk is loaded as, the statement of every text is followed by the tokens of what
stands behind it, and the first of these has the kind that `firstToken` reads off the bytes. -/
theorem text_call_tokens (strscan : Bytes → Bool) (sep : CString) (tpl : Bytes) {ts : List LexToken}
    (hmeant : meantTokens strscan false (segments sep tpl) = some ts)
    (hwhole : ∀ text ∈ textSegments false (segments sep tpl), text ≠ [] → ReadsWhole text)
    (hlen : (chunk sep tpl).length ≤ 0x20000000) {done segs : List Bytes} {text : Bytes}
    (hsplit : segments sep tpl = done ++ text :: segs) (heven : Even done.length) :
    ∃ us vs, loadedTokens strscan (chunk sep tpl) = some (us ++ (printTokens text ++ vs)) ∧
      stream strscan (compose true segs) = some vs ∧
      nextKind vs = firstToken (compose true segs) := by
  have hmax : 0x20000000 + 2 < maxLine := by decide
  have hbound : (compose false (segments sep tpl)).length + 2 < maxLine := by
    rw [← chunk_eq_compose]
    omega
  have hloaded : loadedTokens strscan (chunk sep tpl) = some ts := by
    rw [loadedTokens_chunk]
    exact (stream_compose_iff hmeant hbound).mpr hwhole
  rw [hsplit] at hmeant hwhole
  obtain ⟨us, vs, hvs, rfl⟩ := meantTokens_split heven hmeant
  obtain ⟨front, hfront⟩ := chunk_split hsplit heven
  rw [hfront, List.length_append] at hlen
  have hrest : stream strscan (compose true segs) = some vs :=
    (stream_compose_iff hvs (by omega)).mpr fun text' htext =>
      hwhole text' (textSegments_subset text segs heven htext)
  exact ⟨us, vs, hloaded, hrest, (firstToken_stream hrest (by omega)).symm⟩

/-- The first text of that template, and the name behind it. -/
theorem text_call_name :
    ∃ us vs, loadedTokens (fun _ => false)
        (chunk (CString.single 37 (by decide)) (ascii "a%x%b")) =
          some (us ++ (printTokens (ascii "a") ++ vs)) ∧
      stream (fun _ => false) (compose true [ascii "x", ascii "b"]) = some vs ∧
      nextKind vs = .name :=
  have hsplit : segments (CString.single 37 (by decide)) (ascii "a%x%b") =
      [] ++ ascii "a" :: [ascii "x", ascii "b"] := by decide
  text_call_tokens (fun _ => false) (CString.single 37 (by decide)) (ascii "a%x%b") meantTokens_name
    readsWhole_name (by decide) hsplit (by decide)

end

/-! ## The lines -/

/-- **A token of the code of a template is on a line that the line map sends to its own line.**  Its
last byte, at `k` in the chunk, is the byte at `i` of the template; the line is the one the lexer is
on behind the token, which is the one that an error names. -/
theorem token_line (strscan : Bytes → Bool) {d : Byte} (h0 : d ≠ 0) (tpl : Bytes)
    (hcr : CrLf (chunk (CString.single d h0) tpl)) {ts : List (LexToken × LexState)}
    (hts : tokens strscan 1 (chunk (CString.single d h0) tpl) = .ok ts) :
    ∀ t ∈ ts, ∀ k i b, k + 1 + t.2.input.length = (chunk (CString.single d h0) tpl).length →
      (chunkCells (CString.single d h0) tpl)[k]? = some (.src i b) →
      codeAt (CString.single d h0) tpl i = true →
        (finish (scan (CString.single d h0) tpl)).lm[t.2.line - 1]? = some (lineAt tpl i) := by
  intro t ht k i b hk hcell hcode
  obtain ⟨w, c, hw, -, hline⟩ := tokens_line hts hcr t ht
  have hright : MappedRight (CString.single d h0) tpl true := mappedRight_iff.mpr (chunk_mapsLines tpl)
  have hlen : k = w.length := by
    have hsplit := congrArg List.length hw
    simp only [List.length_append, List.length_cons] at hsplit
    omega
  have hat := hright k i b hcell hcode
  rwa [lineAt, hw, hlen, List.take_left, ← hline] at hat

/-- The template `%`, newline, `x`: the name is on line 3 of the chunk, and on line 2 of the
template. -/
theorem token_line_name :
    (finish (Tmg.scan (CString.single 37 (by decide)) (ascii "%\nx"))).lm[3 - 1]? = some 2 := by
  have hchunk : chunk (CString.single 37 (by decide)) (ascii "%\nx") = ascii "\n\nx" := by decide
  have hcr : CrLf (ascii "\n\nx") := by
    intro t ht
    exact absurd (ht.subset List.mem_cons_self) (by decide)
  have hname : Lua.scan (fun _ => false) 1 (ascii "\n\nx") =
      .ok (.name (ascii "x"), ⟨[], 3⟩) := by
    have hnl : Lua.isEol nl = true := by decide
    calc Lua.scan (fun _ => false) 1 (nl :: [nl, 120])
        = Lua.scan (fun _ => false) 2 (nl :: [120]) := scan_eol _ hnl (by decide) _
      _ = Lua.scan (fun _ => false) 3 [120] := scan_eol _ hnl (by decide) _
      _ = .ok (.name (ascii "x"), ⟨[], 3⟩) := scan_token _ (by decide) (by decide) 3 []
  have hts : tokens (fun _ => false) 1 (ascii "\n\nx") = .ok [(.name (ascii "x"), ⟨[], 3⟩)] := by
    have hend : Lua.scan (fun _ => false) 3 [] = .ok (.eof, ⟨[], 3⟩) := by rw [Lua.scan]
    rw [tokens_ok hname, if_neg (by simp), tokens_ok hend]
    rfl
  rw [← hchunk] at hcr hts
  exact token_line (fun _ => false) (by decide) (ascii "%\nx") hcr hts _ List.mem_cons_self 2 2 120
    (by decide) (by decide) (by decide)

end Tmg
