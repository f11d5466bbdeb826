/-
# `Tmg.Lib.Nesting` — braces and named environments

Markup whose brackets are of two kinds: braces, and environments, which open with
`\begin{x}` and close with `\end{x}` for the same `x`.  A `Markup` is the alphabet's
classification with the symbols and the two words; `nest` reads tokens with a stack of
what is open, and a text is well nested when it leaves the empty stack empty.

Two grades of text compose, and every lemma below says how:

| | |
| :-- | :-- |
| `Piece s` | balanced, and does not end in an unescaped escape symbol |
| `Closed s` | balanced, and ends between two tokens |

A closed text may be followed by anything, a piece by what does not begin with a
letter.  Braces and environments around a piece make a closed text (`Piece.group`,
`Piece.env`).
-/
import Tmg.Lib.Control

namespace Tmg.Lib

variable {α : Type*}

/-! ## The markup -/

/-- The alphabet, with the symbols and words the brackets are made of. -/
structure Markup (α : Type*) where
  cat : α → Cat
  esc : α
  opn : α
  cls : α
  beginWord : List α
  endWord : List α
  cat_esc : ∀ a, cat a = .escape ↔ a = esc
  cat_opn : cat opn = .opening
  cat_cls : cat cls = .closing
  beginWord_letters : beginWord ≠ [] ∧ ∀ a ∈ beginWord, cat a = .letter
  endWord_letters : endWord ≠ [] ∧ ∀ a ∈ endWord, cat a = .letter
  begin_ne_end : beginWord ≠ endWord

/-- What is open: a brace, or an environment of that name. -/
inductive Opened (α : Type*) where
  | brace
  | env (name : List α)
deriving DecidableEq, Repr

def Opened.isBrace : Opened α → Bool
  | .brace => true
  | .env _ => false

/-- What is being read: text, or the name behind `\begin` (`true`) or `\end`. -/
inductive Phase (α : Type*) where
  | text
  | opener (isBegin : Bool)
  | name (isBegin : Bool) (n : List α)
deriving DecidableEq, Repr

namespace Markup

variable (M : Markup α)

/-- `{s}` -/
def group (s : List α) : List α := M.opn :: (s ++ [M.cls])

/-- The control word `w`. -/
def control (w : List α) : List α := M.esc :: w

/-- `\begin{x}` -/
def beginEnv (x : List α) : List α := M.control M.beginWord ++ M.group x

/-- `\end{x}` -/
def endEnv (x : List α) : List α := M.control M.endWord ++ M.group x

/-- No symbol of the text is special. -/
def Plain (s : List α) : Prop := ∀ a ∈ s, M.cat a = .letter ∨ M.cat a = .other

instance (s : List α) : Decidable (M.Plain s) :=
  inferInstanceAs (Decidable (∀ a ∈ s, M.cat a = .letter ∨ M.cat a = .other))

/-- A nonempty run of letters. -/
def Letters (w : List α) : Prop := w ≠ [] ∧ ∀ a ∈ w, M.cat a = .letter

section

variable [DecidableEq α]

/-- One token, read with the stack of what is open. -/
def nestStep : List (Opened α) × Phase α → Tok α → Option (List (Opened α) × Phase α)
  | (st, .text), .word w =>
      if w = M.beginWord then some (st, .opener true)
      else if w = M.endWord then some (st, .opener false)
      else some (st, .text)
  | (st, .text), .opening => some (.brace :: st, .text)
  | (.brace :: st, .text), .closing => some (st, .text)
  | (_, .text), .closing => none
  | (st, .text), _ => some (st, .text)
  | (st, .opener b), .opening => some (st, .name b [])
  | (_, .opener _), _ => none
  | (st, .name b n), .chr a => some (st, .name b (n ++ [a]))
  | (st, .name true n), .closing => some (.env n :: st, .text)
  | (.env m :: st, .name false n), .closing => if m = n then some (st, .text) else none
  | (_, .name _ _), _ => none

/-- A run of tokens. -/
def nest (q : List (Opened α) × Phase α) (ts : List (Tok α)) :
    Option (List (Opened α) × Phase α) :=
  ts.foldlM M.nestStep q

/-- The braces balance and the environments match, inside each other. -/
def WellNested (s : List α) : Prop := M.nest ([], .text) (lex M.cat s) = some ([], .text)

instance (s : List α) : Decidable (M.WellNested s) := inferInstanceAs (Decidable (_ = _))

/-- The tokens close what they open, and no more. -/
def Balanced (ts : List (Tok α)) : Prop := ∀ st, M.nest (st, .text) ts = some (st, .text)

/-- Balanced, and no escape symbol is left unpaired at the end. -/
structure Piece (s : List α) : Prop where
  balanced : M.Balanced (lex M.cat s)
  tame : Tame M.cat s

/-- Balanced, and ends between two tokens. -/
structure Closed (s : List α) : Prop where
  balanced : M.Balanced (lex M.cat s)
  isSealed : Sealed M.cat s

end

end Markup

/-- One token, read with the number of open braces. -/
def braceStep : Nat → Tok α → Option Nat
  | d, .opening => some (d + 1)
  | 0, .closing => none
  | d + 1, .closing => some d
  | d, _ => some d

/-- The unescaped braces balance. -/
def BracesBalance (ts : List (Tok α)) : Prop := ts.foldlM braceStep 0 = some 0

instance (ts : List (Tok α)) : Decidable (BracesBalance ts) := inferInstanceAs (Decidable (_ = _))

namespace Markup

variable {M : Markup α}

/-! ## Tokens -/

theorem lexFrom_letters :
    ∀ (w v : List α), (∀ a ∈ w, M.cat a = .letter) →
      lexFrom M.cat (.word v) w = [.word (v ++ w)] ∧ endMode M.cat (.word v) w = .word (v ++ w)
  | [], v, _ => by simp [lexFrom, LexMode.flush, endMode]
  | a :: w, v, h => by
      have ha : lexStep M.cat (.word v) a = (.word (v ++ [a]), []) := if_pos (h a List.mem_cons_self)
      have ih := lexFrom_letters w (v ++ [a]) fun b hb => h b (List.mem_cons_of_mem _ hb)
      have happ : v ++ [a] ++ w = v ++ a :: w := by simp
      rw [happ] at ih
      refine ⟨?_, ?_⟩
      · rw [lexFrom, ha]
        exact ih.1
      · rw [endMode, List.foldl_cons, ha]
        exact ih.2

theorem lex_control {w : List α} (h : M.Letters w) :
    lex M.cat (M.control w) = [.word w] ∧ Tame M.cat (M.control w) := by
  obtain ⟨hne, hw⟩ := h
  obtain ⟨a, w, rfl⟩ := List.exists_cons_of_ne_nil hne
  have hesc : lexStep M.cat .norm M.esc = (.escape, []) := by
    simp [lexStep, lexNorm, (M.cat_esc M.esc).mpr rfl]
  have ha : lexStep M.cat .escape a = (.word [a], []) := if_pos (hw a List.mem_cons_self)
  have hrest := lexFrom_letters (M := M) w [a] fun b hb => hw b (List.mem_cons_of_mem _ hb)
  refine ⟨?_, ?_⟩
  · rw [control, lex, lexFrom, hesc, lexFrom, ha]
    exact hrest.1
  · have hend : endMode M.cat .norm (M.control (a :: w)) = .word (a :: w) := by
      rw [control, endMode, List.foldl_cons, hesc, List.foldl_cons, ha]
      exact hrest.2
    simp [Tame, hend]

theorem lex_plain :
    ∀ s : List α, M.Plain s → lex M.cat s = s.map .chr ∧ Sealed M.cat s
  | [], _ => ⟨rfl, rfl⟩
  | a :: s, h => by
      have ha : lexStep M.cat .norm a = (.norm, [.chr a]) := by
        rcases h a List.mem_cons_self with hc | hc <;> simp [lexStep, lexNorm, hc]
      obtain ⟨h1, h2⟩ := lex_plain s fun b hb => h b (List.mem_cons_of_mem _ hb)
      refine ⟨?_, ?_⟩
      · rw [lex, lexFrom, ha, List.map_cons]
        exact congrArg (.chr a :: ·) h1
      · rw [Sealed, endMode, List.foldl_cons, ha]
        exact h2

theorem sealed_cons_opn : lex M.cat [M.opn] = [.opening] ∧ Sealed M.cat [M.opn] := by
  constructor
  · simp [lex, lexFrom, lexStep, lexNorm, M.cat_opn, LexMode.flush]
  · simp [Sealed, endMode, lexStep, lexNorm, M.cat_opn]

theorem sealed_cons_cls : lex M.cat [M.cls] = [.closing] ∧ Sealed M.cat [M.cls] := by
  constructor
  · simp [lex, lexFrom, lexStep, lexNorm, M.cat_cls, LexMode.flush]
  · simp [Sealed, endMode, lexStep, lexNorm, M.cat_cls]

theorem noLetter_cls (s : List α) : NoLetterFirst M.cat (M.cls :: s) := by
  rintro a ⟨⟩
  rw [M.cat_cls]
  exact nofun

theorem noLetter_opn (s : List α) : NoLetterFirst M.cat (M.opn :: s) := by
  rintro a ⟨⟩
  rw [M.cat_opn]
  exact nofun

theorem noLetter_group (s : List α) : NoLetterFirst M.cat (M.group s) := noLetter_opn _

theorem noLetter_esc (s : List α) : NoLetterFirst M.cat (M.esc :: s) := by
  rintro a ⟨⟩
  rw [(M.cat_esc M.esc).mpr rfl]
  exact nofun

/-- The tokens of `{s}`, for a text that does not end in an unpaired escape symbol. -/
theorem lex_group {s : List α} (hs : Tame M.cat s) :
    lex M.cat (M.group s) = .opening :: (lex M.cat s ++ [.closing]) ∧
      Sealed M.cat (M.group s) := by
  have hopn := sealed_cons_opn (M := M)
  have hcls := sealed_cons_cls (M := M)
  have hno : NoLetterFirst M.cat [M.cls] := noLetter_cls []
  have happ : M.group s = [M.opn] ++ (s ++ [M.cls]) := rfl
  refine ⟨?_, ?_⟩
  · rw [happ, lex_append_of_sealed hopn.2, lex_append_of_tame hs hno, hopn.1, hcls.1]
    rfl
  · rw [happ]
    refine hopn.2.append ?_
    rw [Sealed, hs.endMode_append (by simp [M.cat_cls])]
    exact hcls.2

/-- The tokens of a control word before a group. -/
theorem lex_control_append {w t : List α} (hw : M.Letters w) (ht : NoLetterFirst M.cat t) :
    lex M.cat (M.control w ++ t) = .word w :: lex M.cat t := by
  rw [lex_append_of_tame (lex_control hw).2 ht, (lex_control hw).1]
  rfl

theorem sealed_control_append {w t : List α} (hw : M.Letters w) (hne : t ≠ [])
    (ht : NoLetterFirst M.cat t) (hs : Sealed M.cat t) : Sealed M.cat (M.control w ++ t) := by
  obtain ⟨a, t, rfl⟩ := List.exists_cons_of_ne_nil hne
  rw [Sealed, (lex_control hw).2.endMode_append (ht a rfl)]
  exact hs

/-! ## Balance -/

variable [DecidableEq α]

theorem nest_append (q : List (Opened α) × Phase α) (a b : List (Tok α)) :
    M.nest q (a ++ b) = (M.nest q a).bind fun q' => M.nest q' b := by
  rw [nest, List.foldlM_append]
  rfl

theorem balanced_nil : M.Balanced [] := fun _ => rfl

theorem Balanced.append {a b : List (Tok α)} (ha : M.Balanced a) (hb : M.Balanced b) :
    M.Balanced (a ++ b) := by
  intro st
  rw [nest_append, ha st]
  exact hb st

theorem Balanced.braces {a : List (Tok α)} (ha : M.Balanced a) :
    M.Balanced (.opening :: (a ++ [.closing])) := by
  intro st
  have hopen : M.nest (st, .text) (.opening :: (a ++ [.closing]))
      = M.nest (.brace :: st, .text) (a ++ [.closing]) := rfl
  rw [hopen, nest_append, ha (.brace :: st)]
  rfl

theorem balanced_chr (s : List α) : M.Balanced (s.map .chr) := by
  intro st
  induction s with
  | nil => rfl
  | cons a s ih => exact ih

theorem balanced_word {w : List α} (hb : w ≠ M.beginWord) (he : w ≠ M.endWord) :
    M.Balanced [.word w] := by
  intro st
  simp [nest, nestStep, hb, he]

/-- The name behind `\begin` or `\end` is read up to its brace. -/
theorem nest_name (b : Bool) (x : List α) (st : List (Opened α)) :
    ∀ n, M.nest (st, .name b n) (x.map .chr ++ [.closing])
      = M.nest (st, .name b (n ++ x)) [.closing] := by
  induction x with
  | nil => intro n; rw [List.append_nil]; rfl
  | cons a x ih =>
      intro n
      have h := ih (n ++ [a])
      rw [List.append_assoc] at h
      exact h

theorem nest_begin (x : List α) (st : List (Opened α)) :
    M.nest (st, .text) (.word M.beginWord :: .opening :: (x.map .chr ++ [.closing]))
      = some (.env x :: st, .text) := by
  have hopen : M.nest (st, .text) (.word M.beginWord :: .opening :: (x.map .chr ++ [.closing]))
      = M.nest (st, .name true []) (x.map .chr ++ [.closing]) := by
    simp [nest, nestStep]
  rw [hopen, nest_name]
  rfl

theorem nest_end (x : List α) (st : List (Opened α)) :
    M.nest (.env x :: st, .text) (.word M.endWord :: .opening :: (x.map .chr ++ [.closing]))
      = some (st, .text) := by
  have hopen : M.nest (.env x :: st, .text)
        (.word M.endWord :: .opening :: (x.map .chr ++ [.closing]))
      = M.nest (.env x :: st, .name false []) (x.map .chr ++ [.closing]) := by
    simp [nest, nestStep, Ne.symm M.begin_ne_end]
  rw [hopen, nest_name]
  simp [nest, nestStep]

/-- Tokens without `\begin` and `\end` whose braces balance are balanced. -/
theorem balanced_of_braces {ts : List (Tok α)} (hb : Tok.word M.beginWord ∉ ts)
    (he : Tok.word M.endWord ∉ ts) (h : BracesBalance ts) : M.Balanced ts := by
  have key : ∀ (ts : List (Tok α)) (d d' : Nat) (st : List (Opened α)),
      Tok.word M.beginWord ∉ ts → Tok.word M.endWord ∉ ts → ts.foldlM braceStep d = some d' →
      M.nest (List.replicate d .brace ++ st, .text) ts
        = some (List.replicate d' .brace ++ st, .text) := by
    intro ts
    induction ts with
    | nil =>
        intro d d' st _ _ h
        obtain rfl : d = d' := by simpa using h
        rfl
    | cons t ts ih =>
        intro d d' st hb he h
        simp only [List.mem_cons, not_or] at hb he
        have ih := fun d₁ h => ih d₁ d' st hb.2 he.2 h
        rw [List.foldlM_cons] at h
        have hstep : ∀ d₁, M.nestStep (List.replicate d .brace ++ st, .text) t
              = some (List.replicate d₁ .brace ++ st, .text) → braceStep d t = some d₁ →
            M.nest (List.replicate d .brace ++ st, .text) (t :: ts)
              = some (List.replicate d' .brace ++ st, .text) := by
          intro d₁ hn hd
          rw [hd] at h
          rw [nest, List.foldlM_cons, hn]
          exact ih d₁ h
        cases t with
        | chr a => exact hstep d rfl (by cases d <;> rfl)
        | sym a => exact hstep d rfl (by cases d <;> rfl)
        | lone => exact hstep d rfl (by cases d <;> rfl)
        | word w =>
            have hw : w ≠ M.beginWord ∧ w ≠ M.endWord :=
              ⟨fun h => hb.1 (by rw [h]), fun h => he.1 (by rw [h])⟩
            exact hstep d (by simp [nestStep, hw]) (by cases d <;> rfl)
        | opening => exact hstep (d + 1) rfl rfl
        | closing =>
            cases d with
            | zero => exact absurd h (by simp [braceStep])
            | succ d => exact hstep d rfl rfl
  intro st
  exact key ts 0 0 st hb he h

/-! ## Composing texts -/

theorem Closed.piece {s : List α} (h : M.Closed s) : M.Piece s := ⟨h.balanced, h.isSealed.tame⟩

theorem closed_nil : M.Closed [] := ⟨balanced_nil, rfl⟩

theorem closed_plain {s : List α} (h : M.Plain s) : M.Closed s := by
  obtain ⟨hlex, hsealed⟩ := lex_plain s h
  exact ⟨by rw [hlex]; exact balanced_chr s, hsealed⟩

theorem Closed.append {s t : List α} (hs : M.Closed s) (ht : M.Closed t) : M.Closed (s ++ t) where
  balanced := by
    rw [lex_append_of_sealed hs.isSealed]
    exact hs.balanced.append ht.balanced
  isSealed := hs.isSealed.append ht.isSealed

theorem Closed.append_piece {s t : List α} (hs : M.Closed s) (ht : M.Piece t) :
    M.Piece (s ++ t) where
  balanced := by
    rw [lex_append_of_sealed hs.isSealed]
    exact hs.balanced.append ht.balanced
  tame := hs.isSealed.append_tame ht.tame

theorem Piece.append_closed {s t : List α} (hs : M.Piece s) (ht : M.Closed t) (hne : t ≠ [])
    (hno : NoLetterFirst M.cat t) : M.Closed (s ++ t) where
  balanced := by
    rw [lex_append_of_tame hs.tame hno]
    exact hs.balanced.append ht.balanced
  isSealed := by
    obtain ⟨a, t, rfl⟩ := List.exists_cons_of_ne_nil hne
    rw [Sealed, hs.tame.endMode_append (hno a rfl)]
    exact ht.isSealed

theorem Piece.append {s t : List α} (hs : M.Piece s) (ht : M.Piece t)
    (hno : NoLetterFirst M.cat t) : M.Piece (s ++ t) where
  balanced := by
    rw [lex_append_of_tame hs.tame hno]
    exact hs.balanced.append ht.balanced
  tame := hs.tame.append ht.tame hno

/-- A symbol that is a token by itself may be taken off. -/
theorem Piece.of_cons {a : α} {s : List α} (ha : M.cat a = .other) (h : M.Piece (a :: s)) :
    M.Piece s := by
  have hstep : lexStep M.cat .norm a = (.norm, [.chr a]) := by simp [lexStep, lexNorm, ha]
  refine ⟨?_, ?_⟩
  · intro st
    have hbal := h.balanced st
    rw [lex, lexFrom, hstep] at hbal
    exact hbal
  · have htame := h.tame
    rw [Tame, endMode, List.foldl_cons, hstep] at htame
    exact htame

/-- Braces close any piece. -/
theorem Piece.group {s : List α} (hs : M.Piece s) : M.Closed (M.group s) := by
  obtain ⟨hlex, hsealed⟩ := lex_group hs.tame
  exact ⟨by rw [hlex]; exact hs.balanced.braces, hsealed⟩

/-- An environment closes any piece. -/
theorem Piece.env {s x : List α} (hs : M.Piece s) (hx : M.Plain x) :
    M.Closed (M.beginEnv x ++ (s ++ M.endEnv x)) := by
  obtain ⟨hlexx, hsealedx⟩ := lex_plain x hx
  obtain ⟨hlexg, hsealedg⟩ := lex_group hsealedx.tame
  rw [hlexx] at hlexg
  have hgroup : ∀ w, M.Letters w →
      lex M.cat (M.control w ++ M.group x) = .word w :: .opening :: (x.map .chr ++ [.closing]) ∧
        Sealed M.cat (M.control w ++ M.group x) := by
    intro w hw
    exact ⟨by rw [lex_control_append hw (noLetter_group x), hlexg],
      sealed_control_append hw (List.cons_ne_nil _ _) (noLetter_group x) hsealedg⟩
  obtain ⟨hlexb, hsealedb⟩ := hgroup _ M.beginWord_letters
  obtain ⟨hlexe, hsealede⟩ := hgroup _ M.endWord_letters
  refine ⟨?_, ?_⟩
  · intro st
    have hlexs : lex M.cat (s ++ M.endEnv x) = lex M.cat s ++ lex M.cat (M.endEnv x) :=
      lex_append_of_tame hs.tame (noLetter_esc _)
    rw [beginEnv, lex_append_of_sealed hsealedb, hlexs, endEnv, hlexb, hlexe, nest_append, nest_begin,
      Option.bind_some, nest_append, hs.balanced, Option.bind_some, nest_end]
  · refine hsealedb.append ?_
    have hend : M.endEnv x = M.esc :: (M.endWord ++ M.group x) := rfl
    rw [Sealed, hend, hs.tame.endMode_append (by simp [(M.cat_esc M.esc).mpr rfl])]
    exact hsealede

/-- A control word other than `\begin` and `\end` is a piece. -/
theorem piece_control {w : List α} (hw : M.Letters w) (hb : w ≠ M.beginWord) (he : w ≠ M.endWord) :
    M.Piece (M.control w) := by
  obtain ⟨hlex, htame⟩ := lex_control hw
  exact ⟨by rw [hlex]; exact balanced_word hb he, htame⟩

/-- A text whose unescaped braces balance, that holds neither `\begin` nor `\end` and does
not end in an unpaired escape symbol is a piece. -/
theorem piece_of_braces {s : List α} (hbal : BracesBalance (lex M.cat s))
    (hb : ¬ M.control M.beginWord <:+: s) (he : ¬ M.control M.endWord <:+: s)
    (htame : Tame M.cat s) : M.Piece s := by
  have hword : ∀ w, Tok.word w ∈ lex M.cat s → M.control w <:+: s := fun w h =>
    infix_of_word_mem (fun a ha => (M.cat_esc a).mp ha) s .norm h
  exact ⟨balanced_of_braces (fun h => hb (hword _ h)) (fun h => he (hword _ h)) hbal, htame⟩

theorem Piece.wellNested {s : List α} (h : M.Piece s) : M.WellNested s := h.balanced []

/-! ## Texts that may follow any piece -/

/-- Closed, and not begun by a letter. -/
structure Tail (M : Markup α) (s : List α) : Prop where
  closed : M.Closed s
  noLetter : NoLetterFirst M.cat s

/-- A tail that is not empty: it keeps what stands before it and behind it apart. -/
structure Fence (M : Markup α) (s : List α) : Prop extends Tail M s where
  ne : s ≠ []

theorem tail_nil : M.Tail [] := ⟨closed_nil, nofun⟩

theorem Tail.append {s t : List α} (hs : M.Tail s) (ht : M.Tail t) : M.Tail (s ++ t) :=
  ⟨hs.closed.append ht.closed, hs.noLetter.append ht.noLetter⟩

theorem Tail.append_fence {s t : List α} (hs : M.Tail s) (ht : M.Fence t) : M.Fence (s ++ t) :=
  ⟨hs.append ht.toTail, by simp [ht.ne]⟩

theorem fence_group {s : List α} (hs : M.Piece s) : M.Fence (M.group s) :=
  ⟨⟨hs.group, noLetter_group s⟩, List.cons_ne_nil _ _⟩

theorem Piece.append_tail {s t : List α} (hs : M.Piece s) (ht : M.Tail t) : M.Piece (s ++ t) :=
  hs.append ht.closed.piece ht.noLetter

theorem Piece.append_fence {s t : List α} (hs : M.Piece s) (ht : M.Fence t) : M.Closed (s ++ t) :=
  hs.append_closed ht.closed ht.ne ht.noLetter

theorem Piece.join {s t u : List α} (hs : M.Piece s) (ht : M.Fence t) (hu : M.Piece u) :
    M.Piece (s ++ (t ++ u)) :=
  hs.append (ht.closed.append_piece hu) (ht.noLetter.append_right ht.ne u)

/-! ## Braces alone -/

/-- The open braces, the one of a name behind `\begin` or `\end` included. -/
def braceDepth : List (Opened α) × Phase α → Nat
  | (st, .name _ _) => st.countP Opened.isBrace + 1
  | (st, _) => st.countP Opened.isBrace

omit [DecidableEq α] in
theorem braceStep_other (d : Nat) {t : Tok α} (ho : t ≠ .opening) (hc : t ≠ .closing) :
    braceStep d t = some d := by
  cases t with
  | opening => exact absurd rfl ho
  | closing => exact absurd rfl hc
  | chr | sym | word | lone => cases d <;> rfl

theorem braceStep_of_nestStep {q q' : List (Opened α) × Phase α} {t : Tok α}
    (h : M.nestStep q t = some q') : braceStep (braceDepth q) t = some (braceDepth q') := by
  have hbrace : ∀ st : List (Opened α), (Opened.brace :: st).countP Opened.isBrace
      = st.countP Opened.isBrace + 1 := fun st => List.countP_cons_of_pos rfl
  have henv : ∀ n (st : List (Opened α)), (Opened.env n :: st).countP Opened.isBrace
      = st.countP Opened.isBrace := fun n st => List.countP_cons_of_neg (by simp [Opened.isBrace])
  unfold nestStep at h
  split at h
  all_goals repeat' split at h
  all_goals cases h
  case h_5.refl ho _ hc => exact braceStep_other _ ho hc
  all_goals simp [braceStep, braceDepth, hbrace, henv]

/-- In a well nested text the braces balance. -/
theorem WellNested.braces {s : List α} (h : M.WellNested s) : BracesBalance (lex M.cat s) := by
  have key : ∀ (ts : List (Tok α)) (q q' : List (Opened α) × Phase α), M.nest q ts = some q' →
      ts.foldlM braceStep (braceDepth q) = some (braceDepth q') := by
    intro ts
    induction ts with
    | nil =>
        intro q q' h
        obtain rfl : q = q' := by simpa [nest] using h
        rfl
    | cons t ts ih =>
        intro q q' h
        rw [nest, List.foldlM_cons] at h
        cases hq : M.nestStep q t with
        | none => simp [hq] at h
        | some q₁ =>
            rw [hq] at h
            rw [List.foldlM_cons, braceStep_of_nestStep hq]
            exact ih q₁ q' h
  exact key _ _ _ h

end Markup

end Tmg.Lib
