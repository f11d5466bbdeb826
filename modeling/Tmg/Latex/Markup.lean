/-
# `Tmg.Latex.Markup` — LaTeX as markup, and the text `escape` writes

The bytes of LaTeX, classified for the tokenizer (`latex`), and what the tokenizer makes
of escaped text.  Each byte of a text is one escape sequence or itself, every one of them
ends between two tokens, so

    lex (escape s) = the tokens of the bytes of s, in order      (`lex_escape`)

and no byte of a text can change how the bytes around it are read.  Blanks are not escaped,
so those at the head may be removed before or after (`stripLeft_escape`).
-/
import Tmg.Latex.Render
import Tmg.Lib.Nesting

namespace Tmg.Latex

open Tmg Lib

/-- The letters of control words. -/
def isLetter (c : Byte) : Bool := (65 ≤ c && c ≤ 90) || (97 ≤ c && c ≤ 122)

/-- The category of a byte. -/
def texCat (c : Byte) : Cat :=
  if c = bsl then .escape
  else if c = 123 then .opening
  else if c = 125 then .closing
  else if isLetter c = true then .letter
  else .other

theorem texCat_eq_escape (c : Byte) : texCat c = .escape ↔ c = bsl := by
  unfold texCat
  split
  · next h => simp [h]
  · next h =>
      refine iff_of_false ?_ h
      split
      · exact nofun
      · split
        · exact nofun
        · split <;> exact nofun

/-- LaTeX. -/
def latex : Markup Byte where
  cat := texCat
  esc := bsl
  opn := 123
  cls := 125
  beginWord := ascii "begin"
  endWord := ascii "end"
  cat_esc := texCat_eq_escape
  cat_opn := by decide
  cat_cls := by decide
  beginWord_letters := by decide
  endWord_letters := by decide
  begin_ne_end := by decide

/-- The tokens of a group. -/
theorem lex_texGroup {s : Bytes} (hs : Tame texCat s) :
    lex texCat (latex.group s) = .opening :: (lex texCat s ++ [.closing]) ∧
      Sealed texCat (latex.group s) :=
  Markup.lex_group (M := latex) hs

/-! ## The three words of `escape` -/

/-- The control words `escape` writes. -/
def escWords : List Bytes :=
  [ascii "textbackslash", ascii "textasciitilde", ascii "textasciicircum"]

theorem letters_of_mem_escWords {w : Bytes} (h : w ∈ escWords) : latex.Letters w := by
  have hall : ∀ v ∈ escWords, v ≠ [] ∧ ∀ a ∈ v, texCat a = .letter := by decide
  exact hall w h

/-- The tokens of a byte of text. -/
def escToks (c : Byte) : List (Tok Byte) :=
  if c = bsl then [.word (ascii "textbackslash"), .opening, .closing]
  else if c ∈ ascii "&%$#_{}" then [.sym c]
  else if c = 126 then [.word (ascii "textasciitilde"), .opening, .closing]
  else if c = 94 then [.word (ascii "textasciicircum"), .opening, .closing]
  else [.chr c]

/-- A byte of text is a word of `escape` with its empty group, an escape symbol, or itself. -/
theorem escToks_cases (c : Byte) :
    (∃ w ∈ escWords, c ∈ [bsl, 126, 94] ∧ escToks c = [.word w, .opening, .closing]) ∨
      (c ∈ ascii "&%$#_{}" ∧ escToks c = [.sym c]) ∨
        (c ≠ bsl ∧ c ∉ ascii "&%$#_{}" ∧ escToks c = [.chr c]) := by
  unfold escToks
  split
  · next hc => exact Or.inl ⟨_, by decide, by rw [hc]; decide, rfl⟩
  · next hbsl =>
      split
      · next hc => exact Or.inr (Or.inl ⟨hc, rfl⟩)
      · next hspecial =>
          split
          · next hc => exact Or.inl ⟨_, by decide, by rw [hc]; decide, rfl⟩
          · split
            · next hc => exact Or.inl ⟨_, by decide, by rw [hc]; decide, rfl⟩
            · exact Or.inr (Or.inr ⟨hbsl, hspecial, rfl⟩)

/-- A word of `escape`, with its empty group. -/
theorem lex_escWord {w : Bytes} (h : w ∈ escWords) :
    lex texCat (bsl :: (w ++ [123, 125])) = [.word w, .opening, .closing] ∧
      Sealed texCat (bsl :: (w ++ [123, 125])) := by
  have hw := letters_of_mem_escWords h
  obtain ⟨hlex, hsealed⟩ := lex_texGroup (s := []) sealed_nil.tame
  constructor
  · have hword : lex texCat (latex.control w ++ latex.group [])
        = .word w :: lex texCat (latex.group []) :=
      Markup.lex_control_append hw (Markup.noLetter_group (M := latex) [])
    rw [hlex] at hword
    exact hword
  · exact Markup.sealed_control_append hw (List.cons_ne_nil _ _)
      (Markup.noLetter_group (M := latex) []) hsealed

/-- One byte of text. -/
theorem lex_esc (c : Byte) :
    lex texCat ((esc? c).getD [c]) = escToks c ∧ Sealed texCat ((esc? c).getD [c]) := by
  unfold esc? escToks
  by_cases h1 : c = bsl
  · rw [if_pos h1, if_pos h1]
    exact lex_escWord (w := ascii "textbackslash") (by decide)
  rw [if_neg h1, if_neg h1]
  by_cases h2 : c ∈ ascii "&%$#_{}"
  · rw [if_pos h2, if_pos h2]
    have hcat : ∀ a ∈ ascii "&%$#_{}", texCat a ≠ .letter := by decide
    have hesc : lexStep texCat .norm bsl = (.escape, []) := by decide
    have hsym : lexStep texCat .escape c = (.norm, [.sym c]) := if_neg (hcat c h2)
    exact ⟨by simp [lex, lexFrom, hesc, hsym, LexMode.flush], by simp [Sealed, endMode, hesc, hsym]⟩
  rw [if_neg h2, if_neg h2]
  by_cases h3 : c = 126
  · rw [if_pos h3, if_pos h3]
    exact lex_escWord (w := ascii "textasciitilde") (by decide)
  rw [if_neg h3, if_neg h3]
  by_cases h4 : c = 94
  · rw [if_pos h4, if_pos h4]
    exact lex_escWord (w := ascii "textasciicircum") (by decide)
  rw [if_neg h4, if_neg h4]
  refine Markup.lex_plain (M := latex) [c] ?_
  intro a ha
  obtain rfl := List.mem_singleton.mp ha
  have hbrace : a ≠ 123 ∧ a ≠ 125 := by
    constructor <;> rintro rfl <;> exact h2 (by decide)
  change texCat a = .letter ∨ texCat a = .other
  rw [texCat, if_neg h1, if_neg hbrace.1, if_neg hbrace.2]
  split
  · exact Or.inl rfl
  · exact Or.inr rfl

/-- The tokens of escaped text are those of its bytes. -/
theorem lex_escape (s : Bytes) :
    lex texCat (escape s) = s.flatMap escToks ∧ Sealed texCat (escape s) := by
  induction s with
  | nil => exact ⟨rfl, rfl⟩
  | cons c s ih =>
      obtain ⟨hlex, hsealed⟩ := lex_esc c
      rw [escape, List.flatMap_cons, List.flatMap_cons, lex_append_of_sealed hsealed, hlex]
      exact ⟨congrArg (escToks c ++ ·) ih.1, hsealed.append ih.2⟩

/-! ## Blanks -/

/-- The first byte that `escape` writes is a blank only for a blank. -/
theorem esc_cons (c : Byte) :
    ∃ b r, (esc? c).getD [c] = b :: r ∧ isSpace b = isSpace c ∧ (isSpace c = true → r = []) := by
  have hbsl : isSpace bsl = false := by decide
  have hspecial : ∀ a ∈ ascii "&%$#_{}", isSpace a = false := by decide
  unfold esc?
  split
  · next h => exact ⟨bsl, ascii "textbackslash{}", rfl, by rw [h], by simp [h, hbsl]⟩
  · split
    · next h => exact ⟨bsl, [c], rfl, by rw [hspecial c h, hbsl], by simp [hspecial c h]⟩
    · split
      · next h => exact ⟨bsl, ascii "textasciitilde{}", rfl, by rw [h]; decide, by rw [h]; decide⟩
      · split
        · next h => exact ⟨bsl, ascii "textasciicircum{}", rfl, by rw [h]; decide, by rw [h]; decide⟩
        · exact ⟨c, [], rfl, rfl, fun _ => rfl⟩

/-- What a text is escaped to, by its first byte. -/
theorem escape_cons (c : Byte) (s : Bytes) :
    ∃ b r, escape (c :: s) = b :: (r ++ escape s) ∧ isSpace b = isSpace c ∧
      (isSpace c = true → r = []) := by
  obtain ⟨b, r, hcons, hspace, hone⟩ := esc_cons c
  refine ⟨b, r, ?_, hspace, hone⟩
  rw [escape, List.flatMap_cons, hcons]
  rfl

/-- Blanks are removed before or after escaping. -/
theorem stripLeft_escape : ∀ s : Bytes, stripLeft (escape s) = escape (stripLeft s)
  | [] => rfl
  | c :: s => by
      obtain ⟨b, r, hesc, hspace, hone⟩ := escape_cons c s
      by_cases hc : isSpace c = true
      · obtain rfl := hone hc
        rw [hesc, stripLeft, stripLeft, List.dropWhile_cons_of_pos (hspace.trans hc),
          List.dropWhile_cons_of_pos hc]
        exact stripLeft_escape s
      · have hb : ¬ isSpace b = true := by rwa [hspace]
        rw [hesc, stripLeft, stripLeft, List.dropWhile_cons_of_neg hb,
          List.dropWhile_cons_of_neg hc, hesc]

theorem all_isSpace_escape : ∀ s : Bytes, (escape s).all isSpace = s.all isSpace
  | [] => rfl
  | c :: s => by
      obtain ⟨b, r, hesc, hspace, hone⟩ := escape_cons c s
      rw [hesc, List.all_cons, List.all_cons, List.all_append, all_isSpace_escape s, hspace]
      cases hc : isSpace c with
      | false => rfl
      | true =>
          rw [hone hc]
          rfl

end Tmg.Latex
