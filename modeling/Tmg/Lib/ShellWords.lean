/-
# `Tmg.Lib.ShellWords` — command lines built from words

A function that quotes strings and joins them by blanks is right if a shell reads the
strings back.  `Reads e w` says that the text `e`, read by itself, is the one word `w`;
the question is what that says of a line of several such texts.  `tokens_join` is the easy
half: texts that are read as words are read as these words when joined.

The other half, `reads_of_tokens_join`, is that nothing else helps: if the joined line is
read as the words `ws`, then each text is read as its word, although a quote that one text
leaves open could be closed by another.  It rests on counting.  No step adds more to the
words than the byte it reads (`step_weight`), a word costs a delimiter to be ended, and a
blank that is read within a word stays in it (`inside_blanks`).  So where each text has as
many delimiters and blanks as the word it stands for (`Balanced`), the first word can end
neither before the blank that follows the first text nor after it.
-/
import Tmg.Lib.Join
import Tmg.Lib.Shell

namespace Tmg.Lib.Shell

/-! ## What a byte can add -/

section Weight

variable {p : UInt8 → Bool} {b : Nat}

/-- A word counted by its bytes that meet `p`, and by `b` for being one. -/
def Token.weight (p : UInt8 → Bool) (b : Nat) : Token → Nat
  | .word w => w.text.countP p + b
  | _ => 0

/-- The bytes that meet `p` in the word being read. -/
def Place.weight (p : UInt8 → Bool) : Place → Nat
  | .word _ w => w.text.countP p
  | _ => 0

/-- The words read so far, and what is there of the next one. -/
def State.weight (p : UInt8 → Bool) (b : Nat) (st : State) : Nat :=
  (st.tokens.map (Token.weight p b)).sum + st.place.weight p

theorem Takes.count_le (hp : p 92 = false) {w w' : Word} {c : UInt8} (h : Takes w c w') :
    w'.text.countP p ≤ w.text.countP p + if p c then 1 else 0 := by
  cases h with
  | out _ => exact Nat.le_add_right _ _
  | added _ => simp [List.countP_cons]
  | both => simp [List.countP_cons, hp]

theorem sum_weight_concat (ts : List Token) (t : Token) :
    ((ts ++ [t]).map (Token.weight p b)).sum = (ts.map (Token.weight p b)).sum + t.weight p b := by
  simp

theorem weight_token_le (w : Word) (c : UInt8) : (w.token c).weight p b ≤ w.text.countP p + b := by
  unfold Word.token
  split
  · exact Nat.zero_le _
  · exact Nat.le_refl _

/-- Operators weigh nothing. -/
theorem sum_weight_ops (ts : List Token) {us : List Token} (hus : ∀ t ∈ us, ∃ o, t = .op o) :
    ((ts ++ us).map (Token.weight p b)).sum = (ts.map (Token.weight p b)).sum := by
  have hzero : (us.map (Token.weight p b)).sum = 0 := by
    have hmap : us.map (Token.weight p b) = us.map fun _ => 0 := by
      refine List.map_congr_left fun t ht => ?_
      obtain ⟨o, rfl⟩ := hus t ht
      rfl
    simp [hmap]
  rw [List.map_append, List.sum_append, hzero, Nat.add_zero]

theorem outside_weight {place : Place} (h : place.Outside) : place.weight p = 0 := by
  cases place with
  | word q w => exact absurd rfl (h q w)
  | gap | op _ | escape | comment => rfl

theorem empty_weight (hp : p 92 = false) {ts : List Token} {q : Quote} {c : UInt8}
    {x : Quote × Word} (h : inside q .empty c = some x) :
    (State.inWord ts x).weight p b ≤ (ts.map (Token.weight p b)).sum + if p c then 1 else 0 := by
  have hcount := (inside_takes h).count_le hp
  have hempty : Word.empty.text.countP p = 0 := rfl
  simp only [State.weight, State.inWord, Place.weight]
  omega

theorem Starts.weight_le (hp : p 92 = false) {ts : List Token} {c : UInt8} {st : State}
    (h : Starts ts c st) :
    st.weight p b ≤ (ts.map (Token.weight p b)).sum + if ¬ Delim c ∧ p c = true then 1 else 0 := by
  cases h with
  | outside hplace hus =>
      rw [State.weight, outside_weight hplace, sum_weight_ops ts hus]
      omega
  | word hc _ h =>
      simpa only [hc, not_false_eq_true, true_and] using empty_weight (b := b) hp h

/-- A byte adds itself to the word, or ends it. -/
theorem step_weight (hp : p 92 = false) (hb : ∀ c, Delim c → b ≤ if p c then 1 else 0)
    {st st' : State} {c : UInt8} (h : step st c = some st') :
    st'.weight p b ≤ st.weight p b + if p c then 1 else 0 := by
  cases step_cases h with
  | stays hplace' hus =>
      rw [State.weight, State.weight, outside_weight hplace', sum_weight_ops _ hus]
      dsimp only
      omega
  | @starts place ts us _ hus hst =>
      have hbound := hst.weight_le (b := b) hp
      have hone : (if ¬ Delim c ∧ p c = true then 1 else 0) ≤ if p c then 1 else 0 := by
        split <;> simp_all
      rw [sum_weight_ops ts hus] at hbound
      simp only [State.weight] at hbound ⊢
      omega
  | escaped hin => exact empty_weight hp hin
  | @ends ts w _ hc hst =>
      have hbound := hst.weight_le (b := b) hp
      rw [if_neg (fun hn => hn.1 hc), sum_weight_concat] at hbound
      have htoken := weight_token_le (p := p) (b := b) w c
      have hone := hb c hc
      simp only [State.weight, State.inWord, Place.weight] at hbound ⊢
      omega
  | goesOn hin =>
      have hcount := (inside_takes hin).count_le hp
      simp only [State.weight, State.inWord, Place.weight]
      omega

theorem sum_map_ite (s : List UInt8) :
    (s.map fun c => if p c then 1 else 0).sum = s.countP p := by
  induction s with
  | nil => rfl
  | cons c s ih =>
      rw [List.map_cons, List.sum_cons, ih, List.countP_cons, Nat.add_comm]

theorem foldlM_weight (hp : p 92 = false) (hb : ∀ c, Delim c → b ≤ if p c then 1 else 0)
    {st st' : State} {s : List UInt8} (h : s.foldlM step st = some st') :
    st'.weight p b ≤ st.weight p b + s.countP p := by
  have hstep : ∀ (st : State) (c : UInt8) (st' : State), step st c = some st' →
      st'.weight p b ≤ st.weight p b + (fun c => if p c then 1 else 0) c :=
    fun _ _ _ => step_weight hp hb
  rw [← sum_map_ite]
  exact foldlM_potential hstep h

/-- What the tokens of a text add to those before it. -/
theorem read_weight (hp : p 92 = false) (hb : ∀ c, Delim c → b ≤ if p c then 1 else 0)
    {st : State} {s : List UInt8} {us : List Token} (h : read st s = some us) :
    (us.map (Token.weight p b)).sum ≤ st.weight p b + s.countP p + b := by
  obtain ⟨st', hrun, hfin⟩ := Option.bind_eq_some_iff.mp h
  have hbound := foldlM_weight hp hb hrun
  obtain ⟨place, ts⟩ := st'
  suffices hlast : (us.map (Token.weight p b)).sum ≤ (⟨place, ts⟩ : State).weight p b + b by omega
  cases place with
  | gap | comment =>
      obtain rfl := Option.some.inj hfin
      simp only [State.weight]
      omega
  | op o =>
      obtain rfl := Option.some.inj hfin
      rw [sum_weight_concat]
      simp only [State.weight, Token.weight]
      omega
  | escape => exact absurd hfin (by simp [finish])
  | word q w =>
      cases q <;> simp only [finish, Option.some.injEq, reduceCtorEq] at hfin
      obtain rfl := hfin
      rw [sum_weight_concat]
      simp only [State.weight, Place.weight, Token.weight]
      omega

end Weight

/-! ## What a blank does in a word -/

/-- Blank or tab. -/
def blank (c : UInt8) : Bool := kind c = .blank

/-- A byte that ends a word. -/
def delim (c : UInt8) : Bool := Delim c

theorem Takes.grows {w w' : Word} {c : UInt8} (h : Takes w c w') : w.text <+: w'.text := by
  cases h with
  | out _ => exact List.prefix_rfl
  | added _ => simp
  | both => simp

/-- A blank that is read within a word stays in it. -/
theorem inside_blank {q q' : Quote} {w w' : Word} {c : UInt8} (hc : blank c = true)
    (h : inside q w c = some (q', w')) : ∃ bs, w'.text = w.text ++ bs ++ [c] := by
  have hkind : kind c = .blank := by simpa [blank] using hc
  have hbyte : c = 32 ∨ c = 9 := by
    by_contra hn
    rw [kind, if_neg hn] at hkind
    split_ifs at hkind
  have hne : c ≠ 10 ∧ c ≠ 34 ∧ c ≠ 36 ∧ c ≠ 39 ∧ c ≠ 92 ∧ c ≠ 96 := by
    rcases hbyte with rfl | rfl <;> decide
  cases q with
  | bare => simp [inside, hkind] at h
  | escape =>
      cases h
      exact ⟨[], by simp [hne]⟩
  | single =>
      simp only [inside, hne, if_false] at h
      cases h
      exact ⟨[], by simp⟩
  | double =>
      simp only [inside, hne, or_self, if_false] at h
      cases h
      exact ⟨[], by simp⟩
  | escDouble =>
      simp only [inside, hne, or_self, if_false] at h
      cases h
      exact ⟨[92], by simp⟩

theorem inside_blanks {q q' : Quote} {w w' : Word} {c : UInt8}
    (h : inside q w c = some (q', w')) :
    w.text.countP blank + (if blank c then 1 else 0) ≤ w'.text.countP blank := by
  by_cases hc : blank c = true
  · obtain ⟨bs, hbs⟩ := inside_blank hc h
    simp only [hbs, List.countP_append, List.countP_cons, List.countP_nil, hc, if_true]
    omega
  · rw [if_neg hc]
    exact (inside_takes h).grows.sublist.countP_le

/-! ## Where a word ends -/

theorem start_tokens {ts : List Token} {c : UInt8} {st : State} (h : start ts c = some st) :
    ts <+: st.tokens := by
  have hafter := start_after ts [] c
  rw [List.append_nil, h] at hafter
  obtain ⟨st', -, hst⟩ := Option.map_eq_some_iff.mp hafter.symm
  exact ⟨st'.tokens, by rw [← hst]; rfl⟩

/-- The tokens already read begin those of the whole text. -/
theorem read_tokens {st : State} {s : List UInt8} {us : List Token} (h : read st s = some us) :
    st.tokens <+: us := by
  have hafter := read_after st.tokens ⟨st.place, []⟩ s
  have hst : (⟨st.place, []⟩ : State).after st.tokens = st := by simp [State.after]
  rw [hst, h] at hafter
  obtain ⟨vs, -, hvs⟩ := Option.map_eq_some_iff.mp hafter.symm
  exact ⟨vs, hvs⟩

/-- The word being read begins the next token, if that is a word. -/
theorem read_inWord (s : List UInt8) :
    ∀ {ts : List Token} {q : Quote} {w : Word} {us : List Token},
      read (State.inWord ts (q, w)) s = some us →
        ∃ t, ts ++ [t] <+: us ∧ ∀ w', t = .word w' → w.text <+: w'.text := by
  induction s with
  | nil =>
      intro ts q w us h
      cases q <;> simp [read, finish, State.inWord] at h
      obtain rfl := h
      refine ⟨.word w, List.prefix_rfl, ?_⟩
      rintro w' ⟨⟩
      exact List.prefix_rfl
  | cons c s ih =>
      intro ts q w us h
      rw [read_cons] at h
      obtain ⟨st, hst, hrest⟩ := Option.bind_eq_some_iff.mp h
      simp only [step, State.inWord] at hst
      split at hst
      · refine ⟨w.token c, (start_tokens hst).trans (read_tokens hrest), ?_⟩
        intro w' hw'
        unfold Word.token at hw'
        split at hw' <;> cases hw'
        exact List.prefix_rfl
      · obtain ⟨⟨q', w'⟩, hin, rfl⟩ := Option.map_eq_some_iff.mp hst
        obtain ⟨t, ht, htext⟩ := ih hrest
        exact ⟨t, ht, fun v hv => (inside_takes hin).grows.trans (htext v hv)⟩

/-! ## Texts joined by blanks -/

/-- The text `e`, by itself, is the one word `w`. -/
def Reads (e : List UInt8) (w : Word) : Prop :=
  e.foldlM step ⟨.gap, []⟩ = some (State.inWord [] (.bare, w))

/-- A text as long in delimiters and blanks as the word it stands for, which begins with a
quote if there is a blank in it. -/
structure Balanced (e : List UInt8) (w : Word) : Prop where
  delims : e.countP delim = w.text.countP delim
  blanks : e.countP blank = w.text.countP blank
  quoted : 0 < e.countP blank → ∃ c r, e = c :: r ∧ (kind c = .single ∨ kind c = .double)

/-- The texts joined by single blanks. -/
def joined (es : List (List UInt8)) : List UInt8 := [32].intercalate es

theorem joined_cons_cons (e e' : List UInt8) (es : List (List UInt8)) :
    joined (e :: e' :: es) = e ++ 32 :: joined (e' :: es) := by
  simp [joined, List.intercalate_cons_cons]

theorem mem_joined {c : UInt8} {es : List (List UInt8)} (h : c ∈ joined es) :
    c = 32 ∨ ∃ e ∈ es, c ∈ e := by
  simpa using mem_intercalate h

/-- A text after which the reader is between tokens. -/
theorem tokens_append {e : List UInt8} {ts : List Token}
    (h : e.foldlM step ⟨.gap, []⟩ = some ⟨.gap, ts⟩) (s : List UInt8) :
    tokens (e ++ s) = (tokens s).map (ts ++ ·) := by
  have hst : (⟨.gap, ts⟩ : State) = State.after ts ⟨.gap, []⟩ := by simp [State.after]
  rw [tokens, read_append, h, hst, Option.bind_some, read_after]
  rfl

/-- After a blank that ends the word `w`, the reader is where it began. -/
theorem read_blank (w : Word) (s : List UInt8) :
    read (State.inWord [] (.bare, w)) (32 :: s)
      = (tokens s).map fun ts => .word w :: ts := by
  have hend : step (State.inWord [] (.bare, w)) 32 = some (State.after [.word w] ⟨.gap, []⟩) := rfl
  rw [read_cons, hend, Option.bind_some, read_after]
  rfl

theorem tokens_word {e : List UInt8} {w : Word} (h : Reads e w) (s : List UInt8) :
    tokens (e ++ 32 :: s) = (tokens s).map fun ts => .word w :: ts := by
  rw [tokens, read_append, h, Option.bind_some, read_blank]

/-- **Texts that are read as words are read as these words when joined.** -/
theorem tokens_join {es : List (List UInt8)} {ws : List Word} (h : List.Forall₂ Reads es ws) :
    tokens (joined es) = some (ws.map .word) := by
  induction h with
  | nil => rfl
  | @cons e w es ws he hrest ih =>
      cases hrest with
      | nil =>
          have hread : tokens (joined [e]) = read (State.inWord [] (.bare, w)) [] := by
            rw [joined, List.intercalate_singleton, tokens, read, he]
            rfl
          exact hread
      | @cons e' w' es ws he' hrest =>
          rw [joined_cons_cons, tokens_word he, ih]
          rfl

/-- The same with more of the line to come. -/
theorem tokens_join_append {es : List (List UInt8)} {ws : List Word}
    (h : List.Forall₂ Reads es ws) (hne : es ≠ []) (s : List UInt8) :
    tokens (joined es ++ 32 :: s) = (tokens s).map (ws.map .word ++ ·) := by
  induction h with
  | nil => exact absurd rfl hne
  | @cons e w es ws he hrest ih =>
      cases hrest with
      | nil =>
          rw [joined, List.intercalate_singleton, tokens_word he]
          rfl
      | @cons e' w' es ws he' hrest =>
          rw [joined_cons_cons, List.append_assoc, List.cons_append, tokens_word he, ih (by simp)]
          cases tokens s <;> rfl

/-! ## Nothing else is read as these words -/

theorem weight_words (ws : List Word) :
    ((ws.map Token.word).map (Token.weight delim 1)).sum
      = (ws.map fun w => w.text.countP delim).sum + ws.length := by
  induction ws with
  | nil => rfl
  | cons w ws ih =>
      simp only [List.map_cons, List.sum_cons, List.length_cons, Token.weight] at ih ⊢
      omega

theorem countP_joined {es : List (List UInt8)} {ws : List Word}
    (h : List.Forall₂ Balanced es ws) :
    (joined es).countP delim + 1
      ≤ (ws.map fun w => w.text.countP delim).sum + max 1 ws.length := by
  induction h with
  | nil => exact Nat.le_refl _
  | @cons e w es ws he hrest ih =>
      cases hrest with
      | nil => simp [joined, he.delims]
      | @cons e' w' es ws he' hrest =>
          have hblank : List.countP delim [32] = 1 := by decide
          rw [joined_cons_cons, ← List.singleton_append, List.countP_append, List.countP_append,
            hblank, he.delims]
          simp only [List.map_cons, List.sum_cons, List.length_cons] at ih ⊢
          omega

theorem delim_cost (c : UInt8) (h : Delim c) : 1 ≤ if delim c then 1 else 0 := by
  simp [delim, h]

theorem foldlM_tokens {st st' : State} {s : List UInt8} (h : s.foldlM step st = some st') :
    st.tokens <+: st'.tokens := by
  have hafter := foldlM_after st.tokens s ⟨st.place, []⟩
  have hst : (⟨st.place, []⟩ : State).after st.tokens = st := by simp [State.after]
  rw [hst, h] at hafter
  obtain ⟨st₀, -, rfl⟩ := Option.map_eq_some_iff.mp hafter.symm
  exact ⟨st₀.tokens, rfl⟩

/-- Until the word is ended, every blank that is read is in it. -/
theorem foldlM_blanks (s : List UInt8) :
    ∀ {q : Quote} {w : Word} {place : Place},
      s.foldlM step (State.inWord [] (q, w)) = some ⟨place, []⟩ →
        ∃ q' w', place = .word q' w' ∧ w.text.countP blank + s.countP blank ≤ w'.text.countP blank := by
  induction s with
  | nil =>
      intro q w place h
      cases h
      exact ⟨q, w, rfl, Nat.le_refl _⟩
  | cons c s ih =>
      intro q w place h
      rw [List.foldlM_cons] at h
      obtain ⟨st, hst, hrest⟩ := Option.bind_eq_some_iff.mp h
      simp only [step, State.inWord] at hst
      split at hst
      · -- a word that is ended would be among the tokens
        have hnil := (start_tokens hst).trans (foldlM_tokens hrest)
        exact absurd (List.prefix_nil.mp hnil) (by simp)
      · obtain ⟨⟨q₁, w₁⟩, hin, rfl⟩ := Option.map_eq_some_iff.mp hst
        have hone := inside_blanks hin
        obtain ⟨q', w', hplace, hmore⟩ := ih hrest
        refine ⟨q', w', hplace, ?_⟩
        rw [List.countP_cons]
        omega

/-- A balanced text with blanks in it begins a word, and leaves no blank out of it. -/
theorem balanced_blanks {e : List UInt8} {w : Word} {place : Place} (hbal : Balanced e w)
    (h : e.foldlM step ⟨.gap, []⟩ = some ⟨place, []⟩) (hpos : 0 < w.text.countP blank) :
    ∃ q w', place = .word q w' ∧ w.text.countP blank ≤ w'.text.countP blank := by
  rw [← hbal.blanks] at hpos ⊢
  obtain ⟨c, r, rfl, hquote⟩ := hbal.quoted hpos
  have hhash : c ≠ 35 := by
    rintro rfl
    exact absurd hquote (by decide)
  have hopen : ∃ q, step ⟨.gap, []⟩ c = some (State.inWord [] (q, ⟨[], false⟩)) ∧ blank c = false := by
    rcases hquote with hk | hk <;>
      exact ⟨_, by simp [step, start, inside, hk, hhash]; rfl, by simp [blank, hk]⟩
  obtain ⟨q₀, hstep, hc⟩ := hopen
  rw [List.foldlM_cons, hstep] at h
  obtain ⟨q, w', hplace, hmore⟩ := foldlM_blanks r h
  refine ⟨q, w', hplace, ?_⟩
  rw [List.countP_cons, hc]
  simpa [Word.text] using hmore

/-- A token that comes first among words is the first of them, and costs a delimiter. -/
theorem tokens_nil_of_balanced {e : List UInt8} {w : Word} {ws : List Word} {st : State}
    (hbal : Balanced e w) (h : e.foldlM step ⟨.gap, []⟩ = some st)
    (htokens : st.tokens <+: (w :: ws).map .word) : st.tokens = [] := by
  have hweight := foldlM_weight (p := delim) (b := 1) (by decide) delim_cost h
  obtain ⟨place, ts⟩ := st
  cases ts with
  | nil => rfl
  | cons t ts =>
      obtain rfl : t = .word w := (List.cons_prefix_cons.mp htokens).1
      simp only [State.weight, Place.weight, List.map_cons, List.sum_cons, List.map_nil, List.sum_nil,
        Token.weight, hbal.delims] at hweight
      omega

/-- A blank ends an operator. -/
theorem step_op_blank (o : List UInt8) : step ⟨.op o, []⟩ 32 = some ⟨.gap, [.op o]⟩ := by
  have hlast : o ++ [32] ∉ operators := by
    intro hmem
    have hall : ∀ x ∈ operators, x.getLast? ≠ some 32 := by decide
    exact hall _ hmem (by simp)
  rw [step]
  dsimp only
  rw [if_neg hlast]
  rfl

/-- Where the reader stands after a balanced text and a blank, if words follow. -/
theorem read_first {e s : List UInt8} {w : Word} {ws : List Word} (hbal : Balanced e w)
    (hs : s.countP delim < (ws.map fun w => w.text.countP delim).sum + ws.length)
    (h : tokens (e ++ 32 :: s) = some ((w :: ws).map .word)) :
    Reads e w ∧ tokens s = some (ws.map .word) := by
  rw [tokens, read_append] at h
  obtain ⟨st, hst, hread⟩ := Option.bind_eq_some_iff.mp h
  have htokens := tokens_nil_of_balanced hbal hst (read_tokens hread)
  obtain ⟨place, ts⟩ := st
  obtain rfl : ts = [] := htokens
  -- words that begin after the blank are too many for what is left
  have hlate : ∀ {st' : State}, st'.weight delim 1 = 0 → read st' s = some ((w :: ws).map .word) →
      False := by
    intro st' h0 hr
    have hweight := read_weight (p := delim) (b := 1) (by decide) delim_cost hr
    rw [weight_words, h0, List.map_cons, List.sum_cons, List.length_cons] at hweight
    omega
  -- and a word that the blank does not end has a blank too many
  have hlong : ∀ {q : Quote} {w' : Word}, w.text.countP blank < w'.text.countP blank →
      read (State.inWord [] (q, w')) s = some ((w :: ws).map .word) → False := by
    intro q w' hblank hr
    obtain ⟨t, ht, htext⟩ := read_inWord s hr
    obtain rfl : t = .word w := (List.cons_prefix_cons.mp ht).1
    have hle := (htext w rfl).sublist.countP_le (p := blank)
    omega
  have hblank : blank 32 = true := by decide
  rw [read_cons] at hread
  cases place with
  | gap => exact absurd (hlate rfl hread) id
  | comment => exact absurd (hlate rfl hread) id
  | op o =>
      rw [step_op_blank] at hread
      have hop : [Token.op o] <+: (w :: ws).map .word := read_tokens hread
      exact absurd (List.cons_prefix_cons.mp hop).1 (by simp)
  | escape =>
      have h0 : w.text.countP blank = 0 := by
        by_contra hne
        obtain ⟨q, w', hplace, -⟩ := balanced_blanks hbal hst (Nat.pos_of_ne_zero hne)
        cases hplace
      refine absurd (hlong ?_ hread) id
      rw [h0]
      decide
  | word q w' =>
      have hle : w.text.countP blank ≤ w'.text.countP blank := by
        rcases Nat.eq_zero_or_pos (w.text.countP blank) with h0 | hpos
        · omega
        · obtain ⟨q₁, w₁, hplace, hle⟩ := balanced_blanks hbal hst hpos
          cases hplace
          exact hle
      by_cases hq : q = .bare
      · subst hq
        have hend := read_blank w' s
        rw [read_cons] at hend
        rw [State.inWord] at hend
        rw [hend] at hread
        obtain ⟨ts, hts, heq⟩ := Option.map_eq_some_iff.mp hread
        obtain ⟨hw, rfl⟩ := List.cons.inj heq
        cases hw
        exact ⟨hst, hts⟩
      · obtain ⟨st₁, hst₁, hrest⟩ := Option.bind_eq_some_iff.mp hread
        simp only [step, hq, false_and, if_false] at hst₁
        obtain ⟨⟨q₁, w₁⟩, hin, rfl⟩ := Option.map_eq_some_iff.mp hst₁
        have hone := inside_blanks hin
        rw [hblank, if_pos rfl] at hone
        exact absurd (hlong (by omega) hrest) id

/-- The only text of a line. -/
theorem reads_last {e : List UInt8} {w : Word} (hbal : Balanced e w)
    (h : tokens e = some [.word w]) : Reads e w := by
  obtain ⟨st, hst, hfin⟩ := Option.bind_eq_some_iff.mp h
  obtain ⟨place, ts⟩ := st
  have hnil : ts = [] := by
    have hread : read ⟨place, ts⟩ [] = some (([w] : List Word).map .word) := hfin
    exact tokens_nil_of_balanced hbal hst (read_tokens hread)
  subst hnil
  cases place with
  | word q w' =>
      cases q <;> simp [finish] at hfin
      subst hfin
      exact hst
  | gap | op _ | escape | comment => simp [finish] at hfin

/-- **A line of balanced texts that is read as the words they stand for is read text by
text.** -/
theorem reads_of_tokens_join {es : List (List UInt8)} {ws : List Word}
    (hbal : List.Forall₂ Balanced es ws) (h : tokens (joined es) = some (ws.map .word)) :
    List.Forall₂ Reads es ws := by
  induction hbal with
  | nil => exact .nil
  | @cons e w es ws he hrest ih =>
      cases hrest with
      | nil =>
          rw [joined, List.intercalate_singleton] at h
          exact .cons (reads_last he h) .nil
      | @cons e' w' es ws he' hrest =>
          rw [joined_cons_cons] at h
          have hcount := countP_joined (.cons he' hrest)
          rw [List.length_cons, Nat.max_eq_right (by omega)] at hcount
          obtain ⟨hfirst, htail⟩ := read_first he (by rw [List.length_cons]; omega) h
          exact .cons hfirst (ih htail)

end Tmg.Lib.Shell
