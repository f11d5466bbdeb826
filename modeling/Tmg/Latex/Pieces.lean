/-
# `Tmg.Latex.Pieces` — the fields of a node, and how the text around them composes

Raw fields are LaTeX that the renderers pass on.  A raw field that is well formed by
itself (`RawOk`) is a piece, and text is closed once it is escaped.  What the renderers
put around both is made of a few shapes, each with its lemma:

| | |
| :-- | :-- |
| `\w`, `\w*` | a piece: a control word swallows the letters behind it |
| `{…}`, `[…]`, `,`, a line break | a fence: it keeps its neighbours apart |
| `\w{…}`, `\begin{x}…\end{x}` | closed |
| lines | a piece if each is one, closed inside an environment |
-/
import Tmg.Latex.Markup

namespace Tmg.Latex

open Tmg Lib

/-! ## Raw fields and names -/

/-- A raw field: its braces balance, it holds neither `\begin` nor `\end`, and it does not
end in an unpaired backslash. -/
def RawOk (s : Bytes) : Prop :=
  BracesBalance (lex texCat s) ∧ ¬ ascii "\\begin" <:+: s ∧ ¬ ascii "\\end" <:+: s ∧ Tame texCat s

instance (s : Bytes) : Decidable (RawOk s) := inferInstanceAs (Decidable (_ ∧ _))

/-- A name without its star. -/
def unstar (w : Bytes) : Bytes := if w.getLast? = some 42 then w.dropLast else w

/-- Letters, and perhaps a star. -/
def IsName (w : Bytes) : Prop := unstar w ≠ [] ∧ ∀ a ∈ unstar w, texCat a = .letter

instance (w : Bytes) : Decidable (IsName w) := inferInstanceAs (Decidable (_ ∧ _))

/-- The name of a command. -/
def IsCmdName (w : Bytes) : Prop := IsName w ∧ unstar w ≠ ascii "begin" ∧ unstar w ≠ ascii "end"

instance (w : Bytes) : Decidable (IsCmdName w) := inferInstanceAs (Decidable (_ ∧ _))

/-! ## Pieces -/

theorem RawOk.piece {s : Bytes} (h : RawOk s) : latex.Piece s :=
  Markup.piece_of_braces (M := latex) h.1 h.2.1 h.2.2.1 h.2.2.2

/-- A constant that is complete in itself. -/
theorem closed_const {s : Bytes} (h : RawOk s ∧ Sealed texCat s) : latex.Closed s :=
  ⟨h.1.piece.balanced, h.2⟩

/-- A constant that keeps its neighbours apart. -/
theorem fence_const {s : Bytes}
    (h : (RawOk s ∧ Sealed texCat s) ∧ NoLetterFirst texCat s ∧ s ≠ []) : latex.Fence s :=
  ⟨⟨closed_const h.1, h.2.1⟩, h.2.2⟩

theorem fence_nl : latex.Fence (ascii "\n") := fence_const (by decide)

theorem fence_parSep : latex.Fence parSep := fence_const (by decide)

theorem fence_comma : latex.Fence (ascii ",") := fence_const (by decide)

theorem fence_space : latex.Fence (ascii " ") := fence_const (by decide)

theorem fence_star : latex.Fence (ascii "*") := fence_const (by decide)

/-- One of two fences. -/
theorem fence_ite {b : Prop} [Decidable b] {s t : Bytes} (hs : latex.Fence s) (ht : latex.Fence t) :
    latex.Fence (if b then s else t) := by
  split
  · exact hs
  · exact ht

/-- A fence, or nothing. -/
theorem tail_ite {b : Prop} [Decidable b] {s : Bytes} (hs : latex.Fence s) :
    latex.Tail (if b then s else []) := by
  split
  · exact hs.toTail
  · exact Markup.tail_nil

theorem fence_brackets {s : Bytes} (h : latex.Piece s) : latex.Fence (bracketed s) := by
  have hopen : latex.Fence (ascii "[") := fence_const (by decide)
  have hclose : latex.Fence (ascii "]") := fence_const (by decide)
  exact ⟨⟨hopen.closed.append (h.append_fence hclose), hopen.noLetter.append_right hopen.ne _⟩,
    List.cons_ne_nil _ _⟩

theorem fence_braces {s : Bytes} (h : latex.Piece s) : latex.Fence (braced s) :=
  Markup.fence_group h

/-- A constant with its argument. -/
theorem closed_command {w s : Bytes} (hw : RawOk w) (hs : latex.Piece s) :
    latex.Closed (w ++ braced s) :=
  hw.piece.append_fence (fence_braces hs)

theorem closed_label {l : Bytes} (h : RawOk l) : latex.Closed (ascii "\\label" ++ braced l) :=
  closed_command (by decide) h.piece

/-- An environment around a piece. -/
theorem closed_env {x s : Bytes} (hx : latex.Plain x) (hs : latex.Piece s) :
    latex.Closed (beginTag x ++ (s ++ endTag x)) :=
  hs.env hx

/-- A name is its letters, and perhaps a star behind them. -/
theorem IsName.eq {w : Bytes} : ∃ star, (star = [] ∨ star = [42]) ∧ w = unstar w ++ star := by
  unfold unstar
  split
  · next h =>
      obtain ⟨v, rfl⟩ := List.getLast?_eq_some_iff.mp h
      exact ⟨[42], Or.inr rfl, by simp⟩
  · exact ⟨[], Or.inl rfl, by simp⟩

theorem IsName.plain {w : Bytes} (h : IsName w) : latex.Plain w := by
  obtain ⟨star, hstar, heq⟩ := IsName.eq (w := w)
  rw [heq]
  intro a ha
  rcases List.mem_append.mp ha with ha | ha
  · exact Or.inl (h.2 a ha)
  · rcases hstar with rfl | rfl
    · exact absurd ha List.not_mem_nil
    · obtain rfl := List.mem_singleton.mp ha
      exact Or.inr (by decide)

/-- The control word of a command. -/
theorem IsCmdName.piece {w : Bytes} (h : IsCmdName w) : latex.Piece (ascii "\\" ++ w) := by
  obtain ⟨star, hstar, heq⟩ := IsName.eq (w := w)
  have hword : latex.Piece (latex.control (unstar w)) := Markup.piece_control h.1 h.2.1 h.2.2
  have htail : latex.Tail star := by
    rcases hstar with rfl | rfl
    · exact Markup.tail_nil
    · exact fence_star.toTail
  have hpiece := hword.append_tail htail
  rw [Markup.control, List.cons_append, ← heq] at hpiece
  exact hpiece

theorem closed_pad (ctx : Ctx) : latex.Closed (pad ctx) := by
  refine Markup.closed_plain (M := latex) ?_
  intro a ha
  unfold pad at ha
  split at ha
  · obtain rfl := (List.mem_replicate.mp ha).2
    exact Or.inr (by decide)
  · exact absurd ha List.not_mem_nil

/-! ## Text -/

theorem balanced_escToks (c : Byte) : latex.Balanced (escToks c) := by
  intro st
  have hwords : ∀ w ∈ escWords, w ≠ latex.beginWord ∧ w ≠ latex.endWord := by decide
  rcases escToks_cases c with ⟨w, hw, -, htoks⟩ | ⟨-, htoks⟩ | ⟨-, -, htoks⟩
  · obtain ⟨hbegin, hend⟩ := hwords w hw
    rw [htoks]
    exact (Markup.balanced_word hbegin hend).append (Markup.balanced_nil.braces) st
  · rw [htoks]
    rfl
  · rw [htoks]
    rfl

theorem balanced_flatMap_escToks : ∀ s : Bytes, latex.Balanced (s.flatMap escToks)
  | [] => Markup.balanced_nil
  | c :: s => by
      rw [List.flatMap_cons]
      exact (balanced_escToks c).append (balanced_flatMap_escToks s)

/-- Escaped text is closed, whatever the text is. -/
theorem closed_escape (s : Bytes) : latex.Closed (escape s) := by
  obtain ⟨hlex, hsealed⟩ := lex_escape s
  refine ⟨?_, hsealed⟩
  rw [show lex latex.cat (escape s) = s.flatMap escToks from hlex]
  exact balanced_flatMap_escToks s

theorem closed_num (n : LuaNum) : latex.Closed n.text := by
  have hplain : ∀ c ∈ numBytes, texCat c = .letter ∨ texCat c = .other := by decide
  exact Markup.closed_plain (M := latex) fun c hc => hplain c (n.plain c hc)

theorem texCat_of_isSpace {c : Byte} (h : isSpace c = true) : texCat c = .other := by
  grind [isSpace, texCat, isLetter, bsl]

theorem piece_stripLeft : ∀ {s : Bytes}, latex.Piece s → latex.Piece (stripLeft s)
  | [], h => h
  | c :: s, h => by
      rw [stripLeft, List.dropWhile_cons]
      split
      · next hc => exact piece_stripLeft (h.of_cons (texCat_of_isSpace hc))
      · exact h

/-- A body behind a space, if there is one. -/
theorem piece_spaced {s body : Bytes} (hs : latex.Piece s) (hbody : latex.Piece body) :
    latex.Piece (s ++ spaced body) := by
  unfold spaced
  split
  · rw [List.append_nil]
    exact hs
  · exact hs.join fence_space hbody

/-! ## Lines -/

/-- Every line is a piece. -/
def Pieces (ls : List Bytes) : Prop := ∀ l ∈ ls, latex.Piece l

theorem pieces_nil : Pieces [] := nofun

theorem pieces_single {s : Bytes} (h : latex.Piece s) : Pieces [s] := List.forall_mem_singleton.mpr h

theorem pieces_cons {s : Bytes} {ls : List Bytes} (h : latex.Piece s) (hls : Pieces ls) :
    Pieces (s :: ls) :=
  List.forall_mem_cons.mpr ⟨h, hls⟩

theorem Pieces.append {ls ls' : List Bytes} (h : Pieces ls) (h' : Pieces ls') :
    Pieces (ls ++ ls') :=
  List.forall_mem_append.mpr ⟨h, h'⟩

theorem pieces_ite {b : Prop} [Decidable b] {ls ls' : List Bytes} (h : Pieces ls)
    (h' : Pieces ls') : Pieces (if b then ls else ls') := by
  split
  · exact h
  · exact h'

theorem tableConcat_concat (sep : Bytes) :
    ∀ (ss : List Bytes) (z : Bytes), tableConcat sep (ss ++ [z]) = ss.flatMap (· ++ sep) ++ z
  | [], z => rfl
  | [s], z => by simp [tableConcat]
  | s :: t :: ss, z => by
      have ih := tableConcat_concat sep (t :: ss) z
      rw [List.cons_append, List.cons_append, tableConcat, ← List.cons_append, ih]
      simp only [List.flatMap_cons, List.append_assoc]

/-- Pieces with fences between them. -/
theorem piece_tableConcat {sep : Bytes} (hsep : latex.Fence sep) :
    ∀ {ss : List Bytes}, Pieces ss → latex.Piece (tableConcat sep ss)
  | [], _ => Markup.closed_nil.piece
  | [s], h => h s List.mem_cons_self
  | s :: t :: ss, h => by
      obtain ⟨hs, hss⟩ := List.forall_mem_cons.mp h
      exact hs.join hsep (piece_tableConcat hsep hss)

/-- Lines, each with its line break. -/
theorem closed_lines :
    ∀ {ls : List Bytes}, Pieces ls → latex.Closed (ls.flatMap (· ++ ascii "\n"))
  | [], _ => Markup.closed_nil
  | l :: ls, h => by
      obtain ⟨hl, hls⟩ := List.forall_mem_cons.mp h
      rw [List.flatMap_cons]
      exact (hl.append_fence fence_nl).append (closed_lines hls)

/-- An environment written line by line. -/
theorem closed_envLines {x p start : Bytes} {ls : List Bytes} (hx : latex.Plain x)
    (hp : latex.Closed p) (hstart : latex.Piece start) (hls : Pieces ls) :
    latex.Closed
      (tableConcat (ascii "\n") ((p ++ beginTag x ++ start) :: ls ++ [p ++ endTag x])) := by
  have hbody : latex.Piece (start ++ (ascii "\n" ++ (ls.flatMap (· ++ ascii "\n") ++ p))) :=
    hstart.join fence_nl ((closed_lines hls).append hp).piece
  have henv := hp.append (closed_env hx hbody)
  rw [tableConcat_concat, List.flatMap_cons]
  simp only [List.append_assoc] at henv ⊢
  exact henv

/-- A body below a head, if there is one. -/
theorem piece_body {head body : Bytes} (hhead : latex.Piece head) (hbody : latex.Piece body) :
    latex.Piece (if body = [] then head else head ++ ascii "\n\n" ++ body) := by
  split
  · exact hhead
  · rw [List.append_assoc]
    exact hhead.join fence_parSep hbody

/-! ## Options -/

/-- The raw fields of an option. -/
def OptVal.RawOk : OptVal → Prop
  | .flag => True
  | .val v => Latex.RawOk v

/-- The raw fields of the options. -/
def Opts.RawOk : Opts → Prop
  | .none => True
  | .str s => Latex.RawOk s
  | .tab arr fields => (∀ s ∈ arr, Latex.RawOk s) ∧ ∀ f ∈ fields, Latex.RawOk f.1 ∧ f.2.RawOk

theorem piece_fmtField {f : Bytes × OptVal} (hk : RawOk f.1) (hv : f.2.RawOk) :
    latex.Piece (fmtField f) := by
  obtain ⟨k, v⟩ := f
  cases v with
  | flag => exact hk.piece
  | val v =>
      rw [fmtField, List.append_assoc]
      exact hk.piece.join (fence_const (by decide)) (RawOk.piece hv)

theorem tail_fmtOpts : ∀ {o : Opts}, o.RawOk → latex.Tail (fmtOpts o)
  | .none, _ => Markup.tail_nil
  | .str s, h => by
      rw [fmtOpts]
      split
      · exact Markup.tail_nil
      · exact (fence_brackets (RawOk.piece h)).toTail
  | .tab arr fields, h => by
      rw [fmtOpts]
      split
      · exact Markup.tail_nil
      · refine (fence_brackets (piece_tableConcat fence_comma ?_)).toTail
        intro s hs
        rcases List.mem_append.mp hs with hs | hs
        · exact (h.1 s hs).piece
        · obtain ⟨f, hf, rfl⟩ := List.mem_map.mp hs
          have hmem := (List.mem_insertionSort _).mp hf
          exact piece_fmtField (h.2 f hmem).1 (h.2 f hmem).2

theorem tail_optArg {o : Option Bytes} (h : ∀ s ∈ o, latex.Piece s) : latex.Tail (R.optArg o) := by
  cases o with
  | none => exact Markup.tail_nil
  | some s => exact (fence_brackets (h s rfl)).toTail

end Tmg.Latex
