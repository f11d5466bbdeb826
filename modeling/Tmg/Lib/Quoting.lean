/-
# `Tmg.Lib.Quoting` — which texts a shell reads back as they are

Three ways to hand a string to a shell as one word, and for each what becomes of it:

| | | |
| :-- | :-- | :-- |
| bare | `s` | `reads_bare_iff`: plain bytes, the first one not `#` |
| double quotes | `"s"` | `reads_double_iff`: no `"`, `$` or backquote, and every backslash before a byte that it does not escape |
| single quotes | `'s'` | `reads_single`: always, once every `'` of `s` is written `'\''` |

The first two are exact.  A byte that is special takes itself out of the word, and nothing
puts it back: the word is never longer than the text that was read (`foldlM_size`), and
the quote that ends a quoted text is not part of it either (`size_closed`).
-/
import Tmg.Lib.ShellWords

namespace Tmg.Lib.Shell

/-! ## The length of what is read -/

/-- The bytes of the word being read; a backslash in double quotes may yet be one. -/
def State.size (st : State) : Nat :=
  match st.place with
  | .word .escDouble w => w.text.length + 1
  | .word _ w => w.text.length
  | _ => 0

@[simp] theorem size_bare (ts : List Token) (w : Word) :
    (State.inWord ts (.bare, w)).size = w.text.length := rfl

@[simp] theorem size_double (ts : List Token) (w : Word) :
    (State.inWord ts (.double, w)).size = w.text.length := rfl

theorem inside_size (ts : List Token) {q : Quote} {w : Word} {c : UInt8} {x : Quote × Word}
    (h : inside q w c = some x) : (State.inWord ts x).size ≤ (State.inWord ts (q, w)).size + 1 := by
  cases q with
  | bare =>
      simp only [inside] at h
      split at h <;> cases h <;> simp [State.size, State.inWord, Word.text, Word.add]
  | escape =>
      cases h
      by_cases hc : c = 10 <;> simp [State.size, State.inWord, hc]
  | single =>
      simp only [inside] at h
      split at h <;> cases h <;> simp [State.size, State.inWord]
  | double =>
      simp only [inside] at h
      split_ifs at h <;> cases h <;> simp [State.size, State.inWord]
  | escDouble =>
      simp only [inside] at h
      split_ifs at h <;> cases h <;> simp [State.size, State.inWord, Nat.add_assoc]

/-- A byte that is not plain is not added to a bare word. -/
theorem inside_special (ts : List Token) {w : Word} {c : UInt8} {x : Quote × Word}
    (hc : kind c ≠ .plain) (h : inside .bare w c = some x) :
    (State.inWord ts x).size ≤ w.text.length := by
  simp only [inside] at h
  split at h <;> cases h
  · exact Nat.le_refl _
  · exact Nat.le_refl _
  · exact Nat.le_refl _
  · next hp => exact absurd hp hc

theorem outside_size {place : Place} (h : place.Outside) (ts : List Token) :
    (⟨place, ts⟩ : State).size = 0 := by
  cases place with
  | word q w => exact absurd rfl (h q w)
  | gap | op _ | escape | comment => rfl

theorem Starts.size_le {ts : List Token} {c : UInt8} {st : State} (h : Starts ts c st) :
    st.size ≤ if kind c = .plain ∧ c ≠ 35 then 1 else 0 := by
  cases h with
  | outside hplace _ =>
      rw [outside_size hplace]
      exact Nat.zero_le _
  | word _ hhash h =>
      by_cases hk : kind c = .plain
      · rw [if_pos ⟨hk, hhash⟩]
        exact inside_size ts h
      · rw [if_neg (fun hp => hk hp.1)]
        exact inside_special ts hk h

theorem Starts.size_le_one {ts : List Token} {c : UInt8} {st : State} (h : Starts ts c st) :
    st.size ≤ 1 := by
  have hle := h.size_le
  split at hle <;> omega

/-- No step makes the word longer than by one byte. -/
theorem step_size {st st' : State} {c : UInt8} (h : step st c = some st') :
    st'.size ≤ st.size + 1 := by
  cases step_cases h with
  | stays hplace' _ =>
      rw [outside_size hplace']
      exact Nat.zero_le _
  | starts _ hst => exact hst.size_le_one.trans (Nat.le_add_left 1 _)
  | escaped hin => exact inside_size _ hin
  | ends _ hst => exact hst.size_le_one.trans (Nat.le_add_left 1 _)
  | goesOn hin => exact inside_size _ hin

theorem foldlM_size {st st' : State} {s : List UInt8} (h : s.foldlM step st = some st') :
    st'.size ≤ st.size + s.length := by
  have hstep : ∀ (st : State) (c : UInt8) (st' : State), step st c = some st' →
      st'.size ≤ st.size + (fun _ => 1) c := fun _ _ _ => step_size
  have hsum : (s.map fun _ => 1).sum = s.length := by simp
  rw [← hsum]
  exact foldlM_potential hstep h

/-! ## Bare words -/

/-- A text without a byte that is special to the shell. -/
structure BareSafe (s : List UInt8) : Prop where
  nonempty : s ≠ []
  plain : ∀ c ∈ s, kind c = .plain
  noComment : s.head? ≠ some 35

theorem plain_not_delim {c : UInt8} (h : kind c = .plain) : ¬ Delim c := by
  simp [Delim, h]

theorem step_plain {w : Word} {c : UInt8} (h : kind c = .plain) :
    step (State.inWord [] (.bare, w)) c = some (State.inWord [] (.bare, w.add c false)) := by
  simp [step, State.inWord, plain_not_delim h, inside, h]

theorem foldlM_plain {s : List UInt8} (h : ∀ c ∈ s, kind c = .plain) (u : List UInt8) :
    s.foldlM step (State.inWord [] (.bare, .unquoted u))
      = some (State.inWord [] (.bare, .unquoted (u ++ s))) := by
  induction s generalizing u with
  | nil => simp
  | cons c s ih =>
      have hadd : (Word.unquoted u).add c false = .unquoted (u ++ [c]) := by
        simp [Word.unquoted, Word.add]
      rw [List.foldlM_cons, step_plain (h c List.mem_cons_self), hadd]
      have hrest := ih (fun d hd => h d (List.mem_cons_of_mem c hd)) (u ++ [c])
      rwa [List.append_assoc] at hrest

theorem reads_bare {s : List UInt8} (h : BareSafe s) : Reads s (.unquoted s) := by
  obtain ⟨hne, hplain, hhash⟩ := h
  cases s with
  | nil => exact absurd rfl hne
  | cons c s =>
      have hc := hplain c List.mem_cons_self
      have hne35 : c ≠ 35 := fun h35 => hhash (by rw [h35]; rfl)
      have hstart : step ⟨.gap, []⟩ c = some (State.inWord [] (.bare, .unquoted [c])) := by
        simp [step, start, hc, hne35, inside, Word.unquoted, Word.add, Word.empty]
      rw [Reads, List.foldlM_cons, hstart]
      exact foldlM_plain (fun d hd => hplain d (List.mem_cons_of_mem c hd)) [c]

/-- A byte that is not plain takes itself out of a bare word. -/
theorem step_special {w : Word} {c : UInt8} {st : State} (hc : kind c ≠ .plain)
    (h : step (State.inWord [] (.bare, w)) c = some st) : st.size ≤ w.text.length := by
  simp only [step, State.inWord] at h
  split at h
  · have hle := (start_cases h).size_le
    rw [if_neg (fun hp => hc hp.1)] at hle
    omega
  · obtain ⟨x, hin, rfl⟩ := Option.map_eq_some_iff.mp h
    exact inside_special [] hc hin

theorem plain_of_foldlM {s : List UInt8} :
    ∀ {w w' : Word}, s.foldlM step (State.inWord [] (.bare, w)) = some (State.inWord [] (.bare, w')) →
      w.text.length + s.length ≤ w'.text.length → ∀ c ∈ s, kind c = .plain := by
  induction s with
  | nil => exact fun _ _ _ hc => absurd hc (by simp)
  | cons d s ih =>
      intro w w' h hlen
      rw [List.foldlM_cons] at h
      obtain ⟨st, hst, hrest⟩ := Option.bind_eq_some_iff.mp h
      have hd : kind d = .plain := by
        by_contra hd
        have hone := step_special hd hst
        have hmore := foldlM_size hrest
        rw [size_bare] at hmore
        rw [List.length_cons] at hlen
        omega
      rw [step_plain hd] at hst
      obtain rfl := Option.some.inj hst
      rw [List.forall_mem_cons]
      refine ⟨hd, ih hrest ?_⟩
      simp only [Word.text_add, List.length_append, List.length_cons, List.length_nil] at hlen ⊢
      omega

/-- **A bare text is read as itself exactly when no byte of it is special.** -/
theorem reads_bare_iff {s : List UInt8} {w : Word} (hw : w.text = s) :
    Reads s w ↔ BareSafe s ∧ w = .unquoted s := by
  constructor
  · intro h
    have hsafe : BareSafe s := by
      cases s with
      | nil =>
          have hgap : (⟨.gap, []⟩ : State) = State.inWord [] (.bare, w) := Option.some.inj h
          exact absurd hgap (by simp [State.inWord])
      | cons c s =>
          rw [Reads, List.foldlM_cons] at h
          obtain ⟨st, hst, hrest⟩ := Option.bind_eq_some_iff.mp h
          have hlen := congrArg List.length hw
          rw [List.length_cons] at hlen
          have hc : kind c = .plain ∧ c ≠ 35 := by
            by_contra hn
            have hone := (start_cases hst).size_le
            have hmore := foldlM_size hrest
            rw [if_neg hn] at hone
            rw [size_bare] at hmore
            omega
          have hstart : step ⟨.gap, []⟩ c = some (State.inWord [] (.bare, .unquoted [c])) := by
            simp [step, start, hc, inside, Word.unquoted, Word.add, Word.empty]
          rw [hstart] at hst
          obtain rfl := Option.some.inj hst
          have htail := plain_of_foldlM hrest (by simp; omega)
          refine ⟨by simp, List.forall_mem_cons.mpr ⟨hc.1, htail⟩, ?_⟩
          simpa using hc.2
    refine ⟨hsafe, ?_⟩
    have hsame := (reads_bare hsafe).symm.trans h
    exact ((Place.word.inj (State.mk.inj (Option.some.inj hsame)).1).2).symm
  · rintro ⟨hsafe, rfl⟩
    exact reads_bare hsafe

/-! ## Double quotes -/

/-- A text that means itself in double quotes. -/
structure DoubleSafe (s : List UInt8) : Prop where
  plain : ∀ c ∈ s, c ≠ 34 ∧ c ≠ 36 ∧ c ≠ 96
  escapes : s.IsChain fun c d => c = 92 → d ≠ 92 ∧ d ≠ 10
  last : s.getLast? ≠ some 92

/-- The text `s` in double quotes. -/
def doubleQuoted (s : List UInt8) : List UInt8 := 34 :: (s ++ [34])

theorem inside_escape {q : Quote} {w w' : Word} {c : UInt8}
    (h : inside q w c = some (.escape, w')) : q = .bare ∧ w' = w := by
  cases q with
  | bare =>
      simp only [inside] at h
      split at h <;> cases h
      exact ⟨rfl, rfl⟩
  | escape => cases h
  | single =>
      simp only [inside] at h
      split at h <;> cases h
  | double | escDouble =>
      simp only [inside] at h
      split_ifs at h <;> cases h

theorem Starts.escape_empty {ts : List Token} {c : UInt8} {st : State} {w : Word}
    (h : Starts ts c st) (hplace : st.place = .word .escape w) : w = .empty := by
  cases h with
  | outside hout _ => exact absurd hplace (hout .escape w)
  | @word x _ _ hin =>
      obtain ⟨q', w'⟩ := x
      cases hplace
      exact (inside_escape hin).2

/-- A backslash that waits for its byte is not in the word. -/
theorem step_escape {st st' : State} {c : UInt8} {w : Word} (h : step st c = some st')
    (hplace : st'.place = .word .escape w) : w.text.length ≤ st.size := by
  cases step_cases h with
  | stays hout _ => exact absurd hplace (hout .escape w)
  | starts _ hst =>
      rw [hst.escape_empty hplace]
      exact Nat.zero_le _
  | @escaped _ x hin =>
      obtain ⟨q', w'⟩ := x
      cases hplace
      exact absurd (inside_escape hin).1 (by simp)
  | ends _ hst =>
      rw [hst.escape_empty hplace]
      exact Nat.zero_le _
  | @goesOn _ q v x hin =>
      obtain ⟨q', w'⟩ := x
      cases hplace
      obtain ⟨rfl, rfl⟩ := inside_escape hin
      exact Nat.le_refl _

/-- The quote that ends a word is one byte that is not part of it. -/
theorem size_closed {s : List UInt8} {q : Quote} {w w' : Word} (hq : q ≠ .escape)
    (h : (s ++ [34]).foldlM step (State.inWord [] (q, w)) = some (State.inWord [] (.bare, w'))) :
    w'.text.length ≤ (State.inWord [] (q, w)).size + s.length := by
  rw [List.foldlM_append] at h
  obtain ⟨⟨place, ts⟩, hst, hlast⟩ := Option.bind_eq_some_iff.mp h
  obtain rfl : ts = [] := List.prefix_nil.mp (foldlM_tokens hlast)
  obtain ⟨st', hst', hend⟩ := Option.bind_eq_some_iff.mp hlast
  obtain rfl := Option.some.inj hend
  have hsize := foldlM_size hst
  obtain ⟨r, v, rfl, -⟩ := foldlM_blanks s hst
  cases r with
  | bare => exact absurd hst' (by simp [step, Delim, kind, inside, State.inWord])
  | single => exact absurd hst' (by simp [step, inside, State.inWord])
  | escDouble => exact absurd hst' (by simp [step, inside, State.inWord])
  | double =>
      have hv : v = w' := by simpa [step, inside, State.inWord] using hst'
      subst hv
      exact hsize
  | escape =>
      -- the quote is in the word, but the backslash before it is not
      have hv : v.add 34 true = w' := by simpa [step, inside, State.inWord] using hst'
      subst hv
      rcases List.eq_nil_or_concat s with rfl | ⟨t, c, rfl⟩
      · cases hst
        exact absurd rfl hq
      · rw [List.concat_eq_append, List.foldlM_append] at hst
        obtain ⟨st₂, hst₂, hc⟩ := Option.bind_eq_some_iff.mp hst
        obtain ⟨st₃, hst₃, hend⟩ := Option.bind_eq_some_iff.mp hc
        obtain rfl := Option.some.inj hend
        have hlen := step_escape hst₃ rfl
        have hbound := foldlM_size hst₂
        simp only [Word.text_add, List.length_append, List.length_cons, List.length_nil,
          List.concat_eq_append]
        omega

theorem step_double {w : Word} {c : UInt8} (h : c ≠ 34 ∧ c ≠ 36 ∧ c ≠ 96) (hb : c ≠ 92) :
    step (State.inWord [] (.double, w)) c = some (State.inWord [] (.double, w.add c true)) := by
  simp [step, State.inWord, inside, h, hb]

theorem step_backslash (w : Word) :
    step (State.inWord [] (.double, w)) 92 = some (State.inWord [] (.escDouble, w)) := by
  simp [step, State.inWord, inside]

theorem step_unescaped {w : Word} {c : UInt8} (h : c ≠ 34 ∧ c ≠ 36 ∧ c ≠ 96) (hb : c ≠ 92 ∧ c ≠ 10) :
    step (State.inWord [] (.escDouble, w)) c
      = some (State.inWord [] (.double, (w.add 92 true).add c true)) := by
  simp [step, State.inWord, inside, h, hb]

theorem quoted_add (s : List UInt8) (c : UInt8) :
    (Word.quoted s).add c true = .quoted (s ++ [c]) := by
  simp [Word.quoted, Word.add]

theorem DoubleSafe.tail {c : UInt8} {s : List UInt8} (h : DoubleSafe (c :: s)) : DoubleSafe s := by
  obtain ⟨hplain, hesc, hlast⟩ := h
  refine ⟨fun d hd => hplain d (List.mem_cons_of_mem c hd), hesc.tail, ?_⟩
  cases s with
  | nil => simp
  | cons d s => simpa using hlast

theorem foldlM_double :
    ∀ {s : List UInt8}, DoubleSafe s → ∀ u : List UInt8,
      s.foldlM step (State.inWord [] (.double, .quoted u))
        = some (State.inWord [] (.double, .quoted (u ++ s)))
  | [], _, u => by simp
  | [c], h, u => by
      have hb : c ≠ 92 := fun hc => h.last (by simp [hc])
      have hstep := step_double (w := .quoted u) (h.plain c (by simp)) hb
      rw [quoted_add] at hstep
      simpa using hstep
  | c :: d :: s, h, u => by
      by_cases hb : c = 92
      · subst hb
        have hd := (List.isChain_cons_cons.mp h.escapes).1 rfl
        rw [List.foldlM_cons, step_backslash]
        have hstep := step_unescaped (w := .quoted u) (h.plain d (by simp)) hd
        rw [quoted_add, quoted_add] at hstep
        have hrest := foldlM_double h.tail.tail (u ++ [92] ++ [d])
        simp only [List.append_assoc, List.cons_append, List.nil_append] at hstep hrest
        rw [Option.bind_eq_bind, Option.bind_some, List.foldlM_cons, hstep]
        exact hrest
      · have hstep := step_double (w := .quoted u) (h.plain c (by simp)) hb
        rw [quoted_add] at hstep
        have hrest := foldlM_double h.tail (u ++ [c])
        rw [List.append_assoc] at hrest
        rw [List.foldlM_cons, hstep]
        exact hrest

/-- The first byte of a text that fills a word in double quotes. -/
theorem first_of_foldlM {c : UInt8} {s : List UInt8} {w w' : Word}
    (h : (c :: s ++ [34]).foldlM step (State.inWord [] (.double, w))
      = some (State.inWord [] (.bare, w')))
    (hlen : w.text.length + (c :: s).length ≤ w'.text.length) : c ≠ 34 ∧ c ≠ 36 ∧ c ≠ 96 := by
  rw [List.cons_append, List.foldlM_cons] at h
  obtain ⟨st, hst, hrest⟩ := Option.bind_eq_some_iff.mp h
  refine ⟨?_, ?_, ?_⟩ <;> rintro rfl
  · have hend : step (State.inWord [] (.double, w)) 34 = some (State.inWord [] (.bare, w)) := by
      simp [step, State.inWord, inside]
    rw [hend] at hst
    obtain rfl := Option.some.inj hst
    have hle := size_closed (by decide) hrest
    rw [size_bare] at hle
    rw [List.length_cons] at hlen
    omega
  · exact absurd hst (by simp [step, State.inWord, inside])
  · exact absurd hst (by simp [step, State.inWord, inside])

/-- A backslash that escapes takes itself out of the word. -/
theorem second_of_foldlM {d : UInt8} {s : List UInt8} {w w' : Word}
    (h : (d :: s ++ [34]).foldlM step (State.inWord [] (.escDouble, w))
      = some (State.inWord [] (.bare, w')))
    (hlen : w.text.length + (s.length + 2) ≤ w'.text.length) :
    (d ≠ 34 ∧ d ≠ 36 ∧ d ≠ 96) ∧ d ≠ 92 ∧ d ≠ 10 := by
  rw [List.cons_append, List.foldlM_cons] at h
  obtain ⟨st, hst, hrest⟩ := Option.bind_eq_some_iff.mp h
  have hshort : ∀ {v : Word}, v.text.length ≤ w.text.length + 1 →
      st = State.inWord [] (.double, v) → False := by
    rintro v hv rfl
    have hle := size_closed (by decide) hrest
    rw [size_double] at hle
    omega
  by_cases hd : d = 34 ∨ d = 36 ∨ d = 96 ∨ d = 92
  · have hstep : step (State.inWord [] (.escDouble, w)) d
        = some (State.inWord [] (.double, w.add d true)) := by
      simp [step, State.inWord, inside, hd]
    rw [hstep] at hst
    exact absurd (hshort (by simp) (Option.some.inj hst).symm) id
  · simp only [not_or] at hd
    obtain ⟨hquote, hdollar, hback, hescape⟩ := hd
    refine ⟨⟨hquote, hdollar, hback⟩, hescape, ?_⟩
    rintro rfl
    have hstep : step (State.inWord [] (.escDouble, w)) 10 = some (State.inWord [] (.double, w)) := by
      simp [step, State.inWord, inside]
    rw [hstep] at hst
    exact absurd (hshort (by omega) (Option.some.inj hst).symm) id

theorem doubleSafe_of_foldlM :
    ∀ {s : List UInt8} {w w' : Word},
      (s ++ [34]).foldlM step (State.inWord [] (.double, w)) = some (State.inWord [] (.bare, w')) →
      w.text.length + s.length ≤ w'.text.length → DoubleSafe s
  | [], _, _, _, _ => ⟨by simp, by simp, by simp⟩
  | [c], w, w', h, hlen => by
      have hc := first_of_foldlM h hlen
      refine ⟨by simpa using hc, by simp, ?_⟩
      rintro hlast
      obtain rfl : c = 92 := by simpa using hlast
      -- the closing quote would be escaped
      have hstep : step (State.inWord [] (.escDouble, w)) 34
          = some (State.inWord [] (.double, w.add 34 true)) := by
        simp [step, State.inWord, inside]
      rw [List.cons_append, List.foldlM_cons, step_backslash, Option.bind_eq_bind, Option.bind_some,
        List.nil_append, List.foldlM_cons, hstep] at h
      exact absurd (Option.some.inj h) (by simp [State.inWord])
  | c :: d :: s, w, w', h, hlen => by
      have hc := first_of_foldlM h hlen
      rw [List.length_cons, List.length_cons] at hlen
      by_cases hb : c = 92
      · subst hb
        rw [List.cons_append, List.foldlM_cons, step_backslash] at h
        obtain ⟨hd, hd'⟩ := second_of_foldlM h hlen
        rw [Option.bind_eq_bind, Option.bind_some, List.cons_append, List.foldlM_cons,
          step_unescaped hd hd'] at h
        have hsafe := doubleSafe_of_foldlM h (by simp; omega)
        refine ⟨?_, ?_, ?_⟩
        · rw [List.forall_mem_cons, List.forall_mem_cons]
          exact ⟨hc, hd, hsafe.plain⟩
        · refine List.isChain_cons_cons.mpr ⟨fun _ => hd', ?_⟩
          cases s with
          | nil => simp
          | cons e s => exact List.isChain_cons_cons.mpr ⟨fun h92 => absurd h92 hd'.1, hsafe.escapes⟩
        · cases s with
          | nil => simpa using hd'.1
          | cons e s => simpa using hsafe.last
      · rw [List.cons_append, List.foldlM_cons, step_double hc hb] at h
        have hsafe := doubleSafe_of_foldlM h (by simp; omega)
        refine ⟨List.forall_mem_cons.mpr ⟨hc, hsafe.plain⟩, ?_, by simpa using hsafe.last⟩
        exact List.isChain_cons_cons.mpr ⟨fun h92 => absurd h92 hb, hsafe.escapes⟩

theorem open_double : step ⟨.gap, []⟩ 34 = some (State.inWord [] (.double, .quoted [])) := rfl

theorem reads_double {s : List UInt8} (h : DoubleSafe s) : Reads (doubleQuoted s) (.quoted s) := by
  have hclose : step (State.inWord [] (.double, .quoted s)) 34
      = some (State.inWord [] (.bare, .quoted s)) := by
    simp [step, State.inWord, inside]
  have hmid := foldlM_double h []
  rw [List.nil_append] at hmid
  rw [Reads, doubleQuoted, List.foldlM_cons, open_double, Option.bind_eq_bind, Option.bind_some,
    List.foldlM_append, hmid, Option.bind_eq_bind, Option.bind_some, List.foldlM_cons, hclose]
  rfl

/-- **A text in double quotes is read as itself exactly when it means itself there.** -/
theorem reads_double_iff {s : List UInt8} {w : Word} (hw : w.text = s) :
    Reads (doubleQuoted s) w ↔ DoubleSafe s ∧ w = .quoted s := by
  constructor
  · intro h
    have hrun := h
    rw [Reads, doubleQuoted, List.foldlM_cons, open_double] at hrun
    have hsafe : DoubleSafe s := doubleSafe_of_foldlM hrun (by simp [hw])
    have hsame := (reads_double hsafe).symm.trans h
    exact ⟨hsafe, ((Place.word.inj (State.mk.inj (Option.some.inj hsame)).1).2).symm⟩
  · rintro ⟨hsafe, rfl⟩
    exact reads_double hsafe

/-! ## Single quotes -/

/-- The text `s` in single quotes, each of its own written as a quote that is escaped
between two quoted texts. -/
def singleQuoted (s : List UInt8) : List UInt8 :=
  39 :: (s.flatMap (fun c => if c = 39 then [39, 92, 39, 39] else [c]) ++ [39])

theorem foldlM_single (s u : List UInt8) :
    (s.flatMap fun c => if c = 39 then [39, 92, 39, 39] else [c]).foldlM step
        (State.inWord [] (.single, .quoted u))
      = some (State.inWord [] (.single, .quoted (u ++ s))) := by
  induction s generalizing u with
  | nil => simp
  | cons c s ih =>
      have hstep : (if c = 39 then [39, 92, 39, 39] else [c]).foldlM step
          (State.inWord [] (.single, .quoted u))
          = some (State.inWord [] (.single, .quoted (u ++ [c]))) := by
        by_cases hc : c = 39
        · subst hc
          rw [if_pos rfl, ← quoted_add]
          rfl
        · rw [if_neg hc, ← quoted_add]
          simp [step, State.inWord, inside, hc]
      have hrest := ih (u ++ [c])
      rw [List.append_assoc] at hrest
      rw [List.flatMap_cons, List.foldlM_append, hstep]
      exact hrest

/-- **A text in single quotes is read as itself.** -/
theorem reads_single (s : List UInt8) : Reads (singleQuoted s) (.quoted s) := by
  have hopen : step ⟨.gap, []⟩ 39 = some (State.inWord [] (.single, .quoted [])) := rfl
  have hclose : step (State.inWord [] (.single, .quoted s)) 39
      = some (State.inWord [] (.bare, .quoted s)) := by
    simp [step, State.inWord, inside]
  have hmid := foldlM_single s []
  rw [List.nil_append] at hmid
  rw [Reads, singleQuoted, List.foldlM_cons, hopen, Option.bind_eq_bind, Option.bind_some,
    List.foldlM_append, hmid, Option.bind_eq_bind, Option.bind_some, List.foldlM_cons, hclose]
  rfl

/-! ## Arguments -/

/-- Nothing in a quoted word is expanded, and no command line begins with it differently. -/
theorem quoted_stands (s : List UInt8) :
    (Word.quoted s).literal = true ∧ (Word.quoted s).commandName = true := by
  have hpattern : ∀ s : List UInt8, isPattern (s.map fun c => ⟨c, true⟩) = false := by
    intro s
    induction s with
    | nil => rfl
    | cons c s ih => simp [isPattern, ih]
  have hname : ∀ s : List UInt8, isAssignment (s.map fun c => ⟨c, true⟩) = false := by
    intro s
    cases s <;> simp [isAssignment]
  have htilde : (Word.quoted s).marks.head? ≠ some ⟨126, false⟩ := by
    cases s <;> simp [Word.quoted]
  refine ⟨?_, by simp [Word.commandName, Word.quoted, hname]⟩
  rw [Word.literal, Bool.and_eq_true, bne_iff_ne, Word.quoted, hpattern]
  exact ⟨htilde, rfl⟩

theorem mapM_word? (ts : List Token) (ws : List Word) :
    ts.mapM Token.word? = some ws ↔ ts = ws.map .word := by
  induction ts generalizing ws with
  | nil => cases ws <;> simp
  | cons t ts ih =>
      rw [List.mapM_cons]
      cases t with
      | word w =>
          cases ws with
          | nil => simp [Token.word?, Option.bind_eq_some_iff]
          | cons v ws =>
              simp only [Token.word?, Option.pure_def, Option.bind_eq_bind, Option.bind_some,
                Option.bind_eq_some_iff, Option.some.injEq, List.map_cons, List.cons.injEq,
                Token.word.injEq, ih]
              constructor
              · rintro ⟨ws', h, rfl, rfl⟩
                exact ⟨rfl, h⟩
              · rintro ⟨rfl, h⟩
                exact ⟨ws, h, rfl, rfl⟩
      | ioNumber _ => cases ws <;> simp [Token.word?]
      | op _ => cases ws <;> simp [Token.word?]

/-- A text is read as arguments when it is cut into words that stand for themselves. -/
theorem fields_eq_some_iff {s : List UInt8} {args : List (List UInt8)} :
    fields s = some args ↔
      ∃ ws : List Word, tokens s = some (ws.map .word) ∧ (∀ w ∈ ws, w.literal = true) ∧
        (∀ w ∈ ws.head?, w.commandName = true) ∧ ws.map Word.text = args := by
  rw [fields, Option.bind_eq_some_iff]
  constructor
  · rintro ⟨ts, hts, h⟩
    obtain ⟨ws, hws, hfields⟩ := Option.bind_eq_some_iff.mp h
    obtain rfl := (mapM_word? ts ws).mp hws
    split at hfields
    · next hok =>
        rw [Bool.and_eq_true, List.all_eq_true, Option.all_eq_true] at hok
        exact ⟨ws, hts, hok.1, hok.2, Option.some.inj hfields⟩
    · exact absurd hfields (by simp)
  · rintro ⟨ws, hts, hliteral, hname, rfl⟩
    refine ⟨_, hts, Option.bind_eq_some_iff.mpr ⟨ws, (mapM_word? _ ws).mpr rfl, if_pos ?_⟩⟩
    rw [Bool.and_eq_true, List.all_eq_true, Option.all_eq_true]
    exact ⟨hliteral, hname⟩

/-- No byte comes into an argument that is not in the text. -/
theorem not_mem_of_fields {s : List UInt8} {args : List (List UInt8)} {c : UInt8} (hc : c ≠ 92)
    (h : fields s = some args) (hs : c ∉ s) : ∀ a ∈ args, c ∉ a := by
  obtain ⟨ws, hts, -, -, rfl⟩ := fields_eq_some_iff.mp h
  have hweight := read_weight (p := (· == c)) (b := 0) (by simpa using hc.symm)
    (fun _ _ => Nat.zero_le _) hts
  have hzero : s.countP (· == c) = 0 := List.count_eq_zero.mpr hs
  have hstart : (⟨.gap, []⟩ : State).weight (· == c) 0 = 0 := rfl
  rw [hzero, hstart, Nat.le_zero, List.sum_eq_zero_iff_forall_eq_nat] at hweight
  intro a ha hmem
  obtain ⟨w, hw, rfl⟩ := List.mem_map.mp ha
  have hnone : w.text.countP (· == c) = 0 :=
    hweight _ (List.mem_map.mpr ⟨.word w, List.mem_map.mpr ⟨w, hw, rfl⟩, rfl⟩)
  exact List.count_eq_zero.mp hnone hmem

end Tmg.Lib.Shell
