/-
# `Tmg.Lib.Control` — control sequences over an arbitrary alphabet

The token rule of TeX, for an alphabet whose symbols are classified by `cat`.  The
escape symbol starts a control sequence: a control word, which is the maximal run of
letters that follows it, or a control symbol, which is the one symbol that follows it
and is no letter.  Every other symbol is a token by itself.

    lex (s ++ t) = lex s ++ lex t      if s ends between two tokens          (`Sealed`)
                                       or in a control word, and t does not
                                       begin with a letter                    (`Tame`)

A text whose pieces are sealed, or tame and followed by something other than a letter,
therefore has the tokens of its pieces, and nothing in one piece changes how another
one is read.  That is all a proof about generated markup needs to know of the rule.
-/
import Mathlib.Data.List.Basic
import Mathlib.Data.List.Infix
import Mathlib.Tactic.Common

namespace Tmg.Lib

variable {α : Type*}

/-- What a symbol is to the tokenizer. -/
inductive Cat where
  | escape
  | opening
  | closing
  | letter
  | other
deriving DecidableEq, Repr

/-- A token.  `lone` is an escape symbol with nothing after it. -/
inductive Tok (α : Type*) where
  | chr (a : α)
  | sym (a : α)
  | word (w : List α)
  | opening
  | closing
  | lone
deriving DecidableEq, Repr

/-- Where the tokenizer stands: between two tokens, after an escape symbol, or in the
control word read so far. -/
inductive LexMode (α : Type*) where
  | norm
  | escape
  | word (w : List α)
deriving DecidableEq, Repr

namespace LexMode

/-- The token that the end of the input completes. -/
def flush : LexMode α → List (Tok α)
  | norm => []
  | escape => [.lone]
  | word w => [.word w]

end LexMode

section

variable (cat : α → Cat)

/-- A symbol read between two tokens. -/
def lexNorm (a : α) : LexMode α × List (Tok α) :=
  match cat a with
  | .escape => (.escape, [])
  | .opening => (.norm, [.opening])
  | .closing => (.norm, [.closing])
  | _ => (.norm, [.chr a])

/-- The mode after a symbol, and the tokens it completes. -/
def lexStep : LexMode α → α → LexMode α × List (Tok α)
  | .norm, a => lexNorm cat a
  | .escape, a => if cat a = .letter then (.word [a], []) else (.norm, [.sym a])
  | .word w, a =>
      if cat a = .letter then (.word (w ++ [a]), [])
      else ((lexNorm cat a).1, .word w :: (lexNorm cat a).2)

/-- The tokens of the input, read from a mode on. -/
def lexFrom : LexMode α → List α → List (Tok α)
  | m, [] => m.flush
  | m, a :: s => (lexStep cat m a).2 ++ lexFrom (lexStep cat m a).1 s

/-- The mode after the input. -/
def endMode (m : LexMode α) (s : List α) : LexMode α := s.foldl (fun m a => (lexStep cat m a).1) m

/-- The tokens of a text. -/
def lex (s : List α) : List (Tok α) := lexFrom cat .norm s

/-- The text ends between two tokens. -/
def Sealed (s : List α) : Prop := endMode cat .norm s = .norm

/-- The text does not end in an escape symbol that is itself not escaped. -/
def Tame (s : List α) : Prop := endMode cat .norm s ≠ .escape

/-- The text does not begin with a letter. -/
def NoLetterFirst (s : List α) : Prop := ∀ a ∈ s.head?, cat a ≠ .letter

instance (s : List α) [DecidableEq α] : Decidable (Sealed cat s) :=
  inferInstanceAs (Decidable (_ = _))

instance (s : List α) [DecidableEq α] : Decidable (Tame cat s) :=
  inferInstanceAs (Decidable (_ ≠ _))

instance (s : List α) : Decidable (NoLetterFirst cat s) :=
  inferInstanceAs (Decidable (∀ a ∈ s.head?, cat a ≠ .letter))

end

/-! ## Appending -/

section

variable {cat : α → Cat}

theorem endMode_append (m : LexMode α) (s t : List α) :
    endMode cat m (s ++ t) = endMode cat (endMode cat m s) t := by
  simp [endMode, List.foldl_append]

theorem lexFrom_append_of_norm :
    ∀ (s t : List α) (m : LexMode α), endMode cat m s = .norm →
      lexFrom cat m (s ++ t) = lexFrom cat m s ++ lex cat t
  | [], t, m, h => by
      obtain rfl : m = .norm := h
      rfl
  | a :: s, t, m, h => by
      rw [List.cons_append, lexFrom, lexFrom, lexFrom_append_of_norm s t _ h, List.append_assoc]

/-- A control word ends before a symbol that is no letter. -/
theorem lexFrom_word {w : List α} {a : α} (ha : cat a ≠ .letter) (s : List α) :
    lexFrom cat (.word w) (a :: s) = .word w :: lex cat (a :: s) ∧
      endMode cat (.word w) (a :: s) = endMode cat .norm (a :: s) := by
  have hstep : lexStep cat (.word w) a = ((lexNorm cat a).1, .word w :: (lexNorm cat a).2) :=
    if_neg ha
  constructor
  · rw [lexFrom, hstep]
    rfl
  · simp only [endMode, List.foldl_cons, hstep]
    rfl

theorem lexFrom_append_of_tame :
    ∀ (s t : List α) (m : LexMode α), endMode cat m s ≠ .escape → NoLetterFirst cat t →
      lexFrom cat m (s ++ t) = lexFrom cat m s ++ lex cat t
  | [], [], m, _, _ => by simp [lex, lexFrom, LexMode.flush]
  | [], a :: t, .norm, _, _ => rfl
  | [], a :: t, .escape, h, _ => absurd rfl h
  | [], a :: t, .word w, _, ht => (lexFrom_word (ht a rfl) t).1
  | a :: s, t, m, h, ht => by
      rw [List.cons_append, lexFrom, lexFrom, lexFrom_append_of_tame s t _ h ht, List.append_assoc]

theorem lex_append_of_sealed {s : List α} (hs : Sealed cat s) (t : List α) :
    lex cat (s ++ t) = lex cat s ++ lex cat t :=
  lexFrom_append_of_norm s t .norm hs

theorem lex_append_of_tame {s t : List α} (hs : Tame cat s) (ht : NoLetterFirst cat t) :
    lex cat (s ++ t) = lex cat s ++ lex cat t :=
  lexFrom_append_of_tame s t .norm hs ht

theorem sealed_nil : Sealed cat ([] : List α) := rfl

theorem Sealed.tame {s : List α} (hs : Sealed cat s) : Tame cat s := by
  rw [Tame, show endMode cat .norm s = .norm from hs]
  exact nofun

theorem Sealed.append {s t : List α} (hs : Sealed cat s) (ht : Sealed cat t) :
    Sealed cat (s ++ t) := by
  rw [Sealed, endMode_append, show endMode cat .norm s = .norm from hs]
  exact ht

theorem Sealed.append_tame {s t : List α} (hs : Sealed cat s) (ht : Tame cat t) :
    Tame cat (s ++ t) := by
  rw [Tame, endMode_append, show endMode cat .norm s = .norm from hs]
  exact ht

/-- Behind a tame text, what does not begin with a letter is read as it is alone. -/
theorem Tame.endMode_append {s : List α} {a : α} {t : List α} (hs : Tame cat s)
    (ha : cat a ≠ .letter) :
    endMode cat .norm (s ++ a :: t) = endMode cat .norm (a :: t) := by
  rw [Lib.endMode_append]
  rw [Tame] at hs
  cases h : endMode cat .norm s with
  | norm => rfl
  | escape => exact absurd h hs
  | word w => exact (lexFrom_word ha t).2

theorem Tame.append {s t : List α} (hs : Tame cat s) (ht : Tame cat t) (hno : NoLetterFirst cat t) :
    Tame cat (s ++ t) := by
  cases t with
  | nil =>
      rw [List.append_nil]
      exact hs
  | cons a t =>
      rw [Tame, hs.endMode_append (hno a rfl)]
      exact ht

theorem NoLetterFirst.append {s t : List α} (hs : NoLetterFirst cat s) (ht : NoLetterFirst cat t) :
    NoLetterFirst cat (s ++ t) := by
  cases s with
  | nil => exact ht
  | cons a s => exact hs

theorem NoLetterFirst.append_right {s : List α} (hs : NoLetterFirst cat s) (hne : s ≠ [])
    (t : List α) : NoLetterFirst cat (s ++ t) := by
  obtain ⟨a, s, rfl⟩ := List.exists_cons_of_ne_nil hne
  exact hs

/-! ## Control words and where they come from -/

/-- The symbols of the control sequence in progress. -/
def LexMode.pending (esc : α) : LexMode α → List α
  | .norm => []
  | .escape => [esc]
  | .word w => esc :: w

/-- A control word of the input stands in it, behind its escape symbol. -/
theorem infix_of_word_mem {esc : α} (hesc : ∀ a, cat a = .escape → a = esc) {w : List α} :
    ∀ (s : List α) (m : LexMode α), Tok.word w ∈ lexFrom cat m s → esc :: w <:+: m.pending esc ++ s
  | [], m, h => by
      cases m with
      | norm => exact absurd h List.not_mem_nil
      | escape => simp [lexFrom, LexMode.flush] at h
      | word v =>
          obtain rfl : w = v := by simpa [lexFrom, LexMode.flush] using h
          exact (List.prefix_append _ _).isInfix
  | a :: s, m, h => by
      rw [lexFrom, List.mem_append] at h
      have hnorm : Tok.word w ∉ (lexNorm cat a).2 := by
        unfold lexNorm
        split <;> simp
      have hpend : (lexNorm cat a).1.pending esc <:+ [a] := by
        unfold lexNorm
        split
        · next hc =>
            obtain rfl := hesc a hc
            exact List.suffix_rfl
        all_goals exact List.nil_suffix
      have hgo : ∀ m', m'.pending esc <:+ m.pending esc ++ [a] →
          Tok.word w ∈ lexFrom cat m' s → esc :: w <:+: m.pending esc ++ a :: s := by
        intro m' hsuf hin
        have ih := infix_of_word_mem hesc s m' hin
        have hgrow : m'.pending esc ++ s <:+ m.pending esc ++ a :: s := by
          obtain ⟨x, hx⟩ := hsuf
          exact ⟨x, by rw [← List.append_assoc, hx]; simp⟩
        exact ih.trans hgrow.isInfix
      cases m with
      | norm =>
          rcases h with h | h
          · exact absurd h hnorm
          · exact hgo _ (hpend.trans (List.suffix_append _ _)) h
      | escape =>
          rw [lexStep] at h
          by_cases ha : cat a = .letter
          · rw [if_pos ha] at h
            exact hgo _ List.suffix_rfl (by simpa using h)
          · rw [if_neg ha] at h
            exact hgo .norm List.nil_suffix (by simpa using h)
      | word v =>
          rw [lexStep] at h
          by_cases ha : cat a = .letter
          · rw [if_pos ha] at h
            exact hgo _ List.suffix_rfl (by simpa using h)
          · rw [if_neg ha] at h
            rcases h with h | h
            · obtain rfl : w = v := by simpa [hnorm] using h
              exact (List.prefix_append _ _).isInfix
            · exact hgo _ (hpend.trans (List.suffix_append _ _)) h

/-! ## The spelling of tokens -/

/-- A token as it stands in the text, for these three symbols. -/
def Tok.spell (esc opn cls : α) : Tok α → List α
  | chr a => [a]
  | sym a => [esc, a]
  | word w => esc :: w
  | opening => [opn]
  | closing => [cls]
  | lone => [esc]

section

variable {esc opn cls : α} (hesc : ∀ a, cat a = .escape → a = esc)
  (hopn : ∀ a, cat a = .opening → a = opn) (hcls : ∀ a, cat a = .closing → a = cls)

include hesc hopn hcls

theorem spell_lexNorm (a : α) :
    (lexNorm cat a).2.flatMap (Tok.spell esc opn cls) ++ (lexNorm cat a).1.pending esc = [a] := by
  unfold lexNorm
  split
  · next hc => simp [LexMode.pending, hesc a hc]
  · next hc => simp [LexMode.pending, Tok.spell, hopn a hc]
  · next hc => simp [LexMode.pending, Tok.spell, hcls a hc]
  · simp [LexMode.pending, Tok.spell]

theorem spell_lexFrom :
    ∀ (s : List α) (m : LexMode α),
      (lexFrom cat m s).flatMap (Tok.spell esc opn cls) = m.pending esc ++ s
  | [], m => by cases m <;> simp [lexFrom, LexMode.flush, LexMode.pending, Tok.spell]
  | a :: s, m => by
      have hstep : (lexStep cat m a).2.flatMap (Tok.spell esc opn cls)
          ++ (lexStep cat m a).1.pending esc = m.pending esc ++ [a] := by
        have hnorm := spell_lexNorm hesc hopn hcls a
        cases m with
        | norm => exact hnorm
        | escape =>
            rw [lexStep]
            split <;> simp [LexMode.pending, Tok.spell]
        | word w =>
            rw [lexStep]
            split
            · simp [LexMode.pending]
            · rw [List.flatMap_cons, List.append_assoc, hnorm]
              rfl
      rw [lexFrom, List.flatMap_append, spell_lexFrom s, ← List.append_assoc, hstep,
        List.append_assoc]
      rfl

/-- The tokens of a text spell the text. -/
theorem spell_lex (s : List α) : (lex cat s).flatMap (Tok.spell esc opn cls) = s :=
  spell_lexFrom hesc hopn hcls s .norm

end

end

end Tmg.Lib
