/-
# `Tmg.Latex.Items` — how LaTeX reads the items of a list

Behind `\item` LaTeX skips blanks, and a bracket that follows then opens the optional
label, which runs to the first closing bracket outside braces:

    \item          the item begins
    [ ... ]        its label, if a bracket is the first thing that is no blank
    ...            its text, up to the next `\item` outside braces

`itemStep` is that rule on tokens.  `R.list` writes `\item`, a space and the body, with the
blanks at its head removed; a body that begins with a bracket is therefore read as a label.
A list of texts is read back as it was written exactly when none of them begins so
(`itemize_readItems_iff`).
-/
import Tmg.Lib.Run
import Tmg.Latex.ReadBack

namespace Tmg.Latex

open Tmg Lib

/-! ## The reader -/

/-- What TeX skips: a space, a tab, the end of a line. -/
def isBlank : Tok Byte → Bool
  | .chr c => c = 32 || c = 9 || c = nl || c = cr
  | _ => false

/-- The text of tokens. -/
def spell (ts : List (Tok Byte)) : Bytes := ts.flatMap (Tok.spell bsl 123 125)

/-- One token of an optional argument, read at a brace depth with what stands before it: go
on, or the argument that the bracket ends. -/
def argStep : Nat × List (Tok Byte) → Tok Byte → Option ((Nat × List (Tok Byte)) ⊕ List (Tok Byte))
  | (depth, read), .opening => some (.inl (depth + 1, read ++ [.opening]))
  | (0, _), .closing => none
  | (depth + 1, read), .closing => some (.inl (depth, read ++ [.closing]))
  | (depth, read), t =>
      if depth = 0 ∧ t = .chr rbr then some (.inr read) else some (.inl (depth, read ++ [t]))

/-- An item as LaTeX reads it. -/
structure ReadItem where
  label : Option Bytes
  text : Bytes
deriving DecidableEq, Repr

/-- Where the reader stands: before the first item, behind `\item`, in a label or in a
text, at a brace depth and with what has been read of it. -/
inductive Place where
  | before
  | afterItem
  | label (depth : Nat) (read : List (Tok Byte))
  | text (label : Option Bytes) (depth : Nat) (read : List (Tok Byte))
deriving DecidableEq, Repr

/-- A text without the line break, and the indentation, in front of what follows it. -/
def dropLayout (s : Bytes) : Bytes :=
  match s.reverse.dropWhile (· = 32) with
  | 10 :: r => r.reverse
  | _ => s

/-- The name of the control word. -/
def itemWord : Bytes := ascii "item"

/-- One token of an item's text. -/
def textStep (items : List ReadItem) (label : Option Bytes) :
    Nat → List (Tok Byte) → Tok Byte → Option (List ReadItem × Place)
  | depth, read, .opening => some (items, .text label (depth + 1) (read ++ [.opening]))
  | 0, _, .closing => none
  | depth + 1, read, .closing => some (items, .text label depth (read ++ [.closing]))
  | depth, read, t =>
      if depth = 0 ∧ t = .word itemWord then
        some (items ++ [⟨label, dropLayout (spell read)⟩], .afterItem)
      else some (items, .text label depth (read ++ [t]))

/-- One token of the environment's body. -/
def itemStep : List ReadItem × Place → Tok Byte → Option (List ReadItem × Place)
  | (items, .before), t =>
      if isBlank t = true then some (items, .before)
      else if t = .word itemWord then some (items, .afterItem)
      else none
  | (items, .afterItem), t =>
      if isBlank t = true then some (items, .afterItem)
      else if t = .chr lbr then some (items, .label 0 [])
      else textStep items none 0 [] t
  | (items, .label depth read), t =>
      match argStep (depth, read) t with
      | none => none
      | some (.inl (depth, read)) => some (items, .label depth read)
      | some (.inr arg) => some (items, .text (some (spell arg)) 0 [])
  | (items, .text label depth read), t => textStep items label depth read t

/-- The item that the end of the environment completes. -/
def Place.finish : Place → Option (List ReadItem)
  | before => some []
  | afterItem => some [⟨none, []⟩]
  | label _ _ => none
  | text lab 0 read => some [⟨lab, dropLayout (spell read)⟩]
  | text _ (_ + 1) _ => none

/-- The items of an environment's body, read on from a place. -/
def readFrom (q : List ReadItem × Place) (ts : List (Tok Byte)) : Option (List ReadItem) :=
  match ts.foldlM itemStep q with
  | some (items, p) => p.finish.map (items ++ ·)
  | none => none

/-- What stands between `\begin` and `\end` of an environment. -/
def insideEnv (env : Bytes) (ts : List (Tok Byte)) : Option (List (Tok Byte)) :=
  let opener := lex texCat (beginTag env)
  let closer := lex texCat (endTag env)
  let body := ts.drop opener.length
  if opener <+: ts ∧ closer <:+ body then some (body.take (body.length - closer.length)) else none

/-- The items of a list environment, as LaTeX reads them. -/
def readItems (env s : Bytes) : Option (List ReadItem) :=
  (insideEnv env (lex texCat s)).bind (readFrom ([], .before))

/-! ## Reading on -/

theorem readFrom_append (q : List ReadItem × Place) (a b : List (Tok Byte)) :
    readFrom q (a ++ b) = (a.foldlM itemStep q).bind fun q' => readFrom q' b := by
  rw [readFrom, List.foldlM_append]
  cases a.foldlM itemStep q <;> rfl

theorem readFrom_of_run {q q' : List ReadItem × Place} {a : List (Tok Byte)}
    (h : a.foldlM itemStep q = some q') (b : List (Tok Byte)) :
    readFrom q (a ++ b) = readFrom q' b := by
  rw [readFrom_append, h]
  rfl

theorem insideEnv_append (env : Bytes) (ts : List (Tok Byte)) :
    insideEnv env (lex texCat (beginTag env) ++ (ts ++ lex texCat (endTag env))) = some ts := by
  simp [insideEnv]

/-! ## The text of an item -/

theorem spell_lexText (s : Bytes) : spell (lex texCat s) = s := by
  refine spell_lex ?_ ?_ ?_ s <;> grind [texCat]

theorem spell_escToks (u : Bytes) : spell (u.flatMap escToks) = escape u := by
  rw [← (lex_escape u).1, spell_lexText]

theorem spell_append (a b : List (Tok Byte)) : spell (a ++ b) = spell a ++ spell b :=
  List.flatMap_append

theorem spell_chr (s : Bytes) : spell (s.map .chr) = s := by
  simp [spell, List.flatMap_map, Tok.spell]

/-- The line break and the indentation behind a text are layout. -/
theorem dropLayout_line (s : Bytes) (n : Nat) :
    dropLayout (s ++ nl :: List.replicate n 32) = s := by
  have hrev : (s ++ nl :: List.replicate n 32).reverse
      = List.replicate n 32 ++ 10 :: s.reverse := by
    simp [nl]
  have hblank : ∀ b ∈ List.replicate n (32 : Byte), decide (b = 32) = true := by
    intro b hb
    simp [List.eq_of_mem_replicate hb]
  rw [dropLayout, hrev, List.dropWhile_append_of_pos hblank]
  simp

/-- The tokens of one byte of text leave the reader in the text. -/
theorem run_escToks (items : List ReadItem) (label : Option Bytes) (c : Byte)
    (read : List (Tok Byte)) :
    (escToks c).foldlM itemStep (items, .text label 0 read)
      = some (items, .text label 0 (read ++ escToks c)) := by
  have hwords : ∀ w ∈ escWords, w ≠ itemWord := by decide
  rcases escToks_cases c with ⟨w, hw, -, htoks⟩ | ⟨-, htoks⟩ | ⟨-, -, htoks⟩
  · have hne := hwords w hw
    simp [htoks, itemStep, textStep, hne]
  · simp [htoks, itemStep, textStep]
  · simp [htoks, itemStep, textStep]

theorem run_text (items : List ReadItem) (label : Option Bytes) :
    ∀ (u : Bytes) (read : List (Tok Byte)),
      (u.flatMap escToks).foldlM itemStep (items, .text label 0 read)
        = some (items, .text label 0 (read ++ u.flatMap escToks))
  | [], read => by simp
  | c :: u, read => by
      rw [List.flatMap_cons, List.foldlM_append, run_escToks]
      change (u.flatMap escToks).foldlM itemStep _ = _
      rw [run_text items label u, List.append_assoc]

theorem run_chr (items : List ReadItem) (label : Option Bytes) :
    ∀ (s : Bytes) (read : List (Tok Byte)),
      (s.map Tok.chr).foldlM itemStep (items, .text label 0 read)
        = some (items, .text label 0 (read ++ s.map .chr))
  | [], read => by simp
  | c :: s, read => by
      rw [List.map_cons, List.foldlM_cons]
      change (s.map Tok.chr).foldlM itemStep (items, .text label 0 (read ++ [.chr c])) = _
      rw [run_chr items label s, List.append_assoc]
      rfl

/-! ## A line of the list -/

/-- The line break and the indentation in front of a line. -/
def layout (n : Nat) : List (Tok Byte) := (nl :: List.replicate n 32).map .chr

/-- The tokens of an item whose body is the escaped `u`. -/
def itemToks (n : Nat) (u : Bytes) : List (Tok Byte) :=
  layout n ++ .word itemWord :: lex texCat (spaced (escape u))

/-- Where the reader stands behind that body, if it has not begun with a bracket. -/
def afterBody (u : Bytes) : Place :=
  if u = [] then .afterItem else .text none 0 (u.flatMap escToks)

/-- The reader has items behind it: a further `\item` or the end of the environment leaves
it with those in `done`. -/
structure Ready (n : Nat) (q : List ReadItem × Place) (done : List ReadItem) : Prop where
  next : (layout n ++ [Tok.word itemWord]).foldlM itemStep q = some (done, .afterItem)
  last : readFrom q [.chr nl] = some done

/-- Blanks in front of an item or of its text are skipped. -/
theorem run_blanks (items : List ReadItem) {p : Place} (hp : p = .before ∨ p = .afterItem) :
    ∀ s : Bytes, (∀ b ∈ s, isBlank (.chr b) = true) →
      (s.map Tok.chr).foldlM itemStep (items, p) = some (items, p)
  | [], _ => rfl
  | b :: s, h => by
      have hb : isBlank (.chr b) = true := h b List.mem_cons_self
      have hstep : itemStep (items, p) (.chr b) = some (items, p) := by
        rcases hp with rfl | rfl <;> exact if_pos hb
      rw [List.map_cons, List.foldlM_cons, hstep]
      exact run_blanks items hp s fun c hc => h c (List.mem_cons_of_mem _ hc)

theorem blank_layout (n : Nat) :
    ∀ b ∈ nl :: List.replicate n (32 : Byte), isBlank (.chr b) = true := by
  intro b hb
  rcases List.mem_cons.mp hb with rfl | hb
  · decide
  · rw [List.eq_of_mem_replicate hb]
    decide

theorem ready_before (n : Nat) : Ready n ([], .before) [] where
  next := by
    rw [List.foldlM_append, layout, run_blanks [] (Or.inl rfl) _ (blank_layout n)]
    decide
  last := by decide

theorem ready_afterBody (n : Nat) (items : List ReadItem) (u : Bytes) :
    Ready n (items, afterBody u) (items ++ [⟨none, escape u⟩]) := by
  have hitem : itemStep (items, .afterItem) (.word itemWord)
      = some (items ++ [⟨none, []⟩], .afterItem) := by
    simp [itemStep, isBlank, textStep, spell, dropLayout]
  have htext : ∀ s : Bytes,
      dropLayout (spell (u.flatMap escToks ++ s.map .chr)) = dropLayout (escape u ++ s) := by
    intro s
    rw [spell_append, spell_escToks, spell_chr]
  by_cases hu : u = []
  · subst hu
    refine ⟨?_, ?_⟩
    · rw [afterBody, if_pos rfl, List.foldlM_append, layout,
        run_blanks items (Or.inr rfl) _ (blank_layout n), Option.bind_eq_bind, Option.bind_some,
        List.foldlM_cons, hitem]
      rfl
    · have hblank := run_blanks items (p := .afterItem) (Or.inr rfl) [nl] (by decide)
      rw [afterBody, if_pos rfl, readFrom]
      rw [List.map_singleton] at hblank
      rw [hblank]
      rfl
  · have hread : ∀ s : Bytes, (s.map Tok.chr).foldlM itemStep (items, afterBody u)
        = some (items, .text none 0 (u.flatMap escToks ++ s.map .chr)) := by
      intro s
      rw [afterBody, if_neg hu, run_chr]
    refine ⟨?_, ?_⟩
    · rw [List.foldlM_append, layout, hread, Option.bind_eq_bind, Option.bind_some,
        List.foldlM_cons]
      simp only [itemStep, textStep, and_self, if_true]
      rw [htext, dropLayout_line]
      rfl
    · have hnl := hread [nl]
      rw [List.map_singleton] at hnl
      have hdrop : dropLayout (escape u ++ [nl]) = escape u := dropLayout_line (escape u) 0
      rw [readFrom, hnl]
      change some (items ++ [⟨none, dropLayout (spell (u.flatMap escToks ++ [nl].map Tok.chr))⟩]) = _
      rw [htext, hdrop]

/-- The first token of a byte of text: if it is a character, it is that byte. -/
theorem escToks_first (c : Byte) : ∃ t ts, escToks c = t :: ts ∧ ∀ d, t = .chr d → d = c := by
  rcases escToks_cases c with ⟨w, -, -, htoks⟩ | ⟨-, htoks⟩ | ⟨-, -, htoks⟩
  · exact ⟨_, _, htoks, nofun⟩
  · exact ⟨_, _, htoks, nofun⟩
  · exact ⟨_, _, htoks, fun d hd => (Tok.chr.inj hd).symm⟩

theorem escToks_cons (c : Byte) :
    ∃ t ts, escToks c = t :: ts ∧ (isBlank t = true → isSpace c = true) ∧
      (t = .chr lbr ↔ c = lbr) := by
  obtain ⟨t, ts, hcons, hchr⟩ := escToks_first c
  refine ⟨t, ts, hcons, ?_, fun ht => (hchr lbr ht).symm, ?_⟩
  · intro ht
    cases t with
    | chr d =>
        rw [← hchr d rfl]
        grind [isBlank, isSpace, nl, cr]
    | _ => exact absurd ht Bool.false_ne_true
  · rintro rfl
    have hlbr : escToks lbr = [.chr lbr] := by decide
    exact (List.cons.inj (hcons.symm.trans hlbr)).1

/-- A body and the space in front of it. -/
theorem lex_spaced_escape (c : Byte) (u : Bytes) :
    lex texCat (spaced (escape (c :: u))) = [32].map Tok.chr ++ (c :: u).flatMap escToks := by
  have hne : escape (c :: u) ≠ [] := by
    obtain ⟨b, r, hcons, -⟩ := escape_cons c u
    simp [hcons]
  obtain ⟨hspace, hsealed⟩ := Markup.lex_plain (M := latex) [32] (by decide)
  rw [spaced, if_neg hne]
  change lex latex.cat ([32] ++ escape (c :: u)) = _
  rw [lex_append_of_sealed hsealed, hspace]
  exact congrArg _ (lex_escape (c :: u)).1

/-- A body that does not begin with a bracket is the text of the item. -/
theorem run_body (items : List ReadItem) {u : Bytes} (hspace : ∀ b ∈ u.head?, isSpace b = false)
    (hbr : u.head? ≠ some lbr) :
    (lex texCat (spaced (escape u))).foldlM itemStep (items, .afterItem)
      = some (items, afterBody u) := by
  cases u with
  | nil => rfl
  | cons c u =>
      have hc : isSpace c = false := hspace c rfl
      have hlbr : c ≠ lbr := fun h => hbr (by rw [h]; rfl)
      have hlex := lex_spaced_escape c u
      obtain ⟨t, ts, hcons, hblank, hbracket⟩ := escToks_cons c
      -- the first token of the body begins the text
      have hfirst : ∀ rest, (t :: rest).foldlM itemStep (items, .afterItem)
          = (t :: rest).foldlM itemStep (items, .text none 0 []) := by
        intro rest
        have ht : itemStep (items, .afterItem) t = itemStep (items, .text none 0 []) t := by
          have hnot : ¬ isBlank t = true := fun h => by simp [hblank h] at hc
          have hne : t ≠ .chr lbr := fun h => hlbr (hbracket.mp h)
          simp only [itemStep, if_neg hnot, if_neg hne]
        rw [List.foldlM_cons, List.foldlM_cons, ht]
      have hskip := run_blanks items (p := .afterItem) (Or.inr rfl) [32] (by decide)
      rw [hlex, List.foldlM_append, hskip, Option.bind_eq_bind, Option.bind_some,
        List.flatMap_cons, hcons, List.cons_append, hfirst, ← List.cons_append, ← hcons,
        ← List.flatMap_cons, run_text, afterBody, if_neg (List.cons_ne_nil c u), List.nil_append]

/-! ## A body read as a label -/

/-- What a token of a text does: it is added, or the item is complete. -/
theorem textStep_cases {items : List ReadItem} {label : Option Bytes} {depth : Nat}
    {read : List (Tok Byte)} {t : Tok Byte} {q : List ReadItem × Place}
    (h : textStep items label depth read t = some q) :
    (∃ d r, q = (items, .text label d r)) ∨ ∃ text, q = (items ++ [⟨label, text⟩], .afterItem) := by
  unfold textStep at h
  split at h
  · exact Or.inl ⟨_, _, (Option.some.inj h).symm⟩
  · simp at h
  · exact Or.inl ⟨_, _, (Option.some.inj h).symm⟩
  · split at h
    · exact Or.inr ⟨_, (Option.some.inj h).symm⟩
    · exact Or.inl ⟨_, _, (Option.some.inj h).symm⟩

/-- The `i`-th item has a label, or is being read and has one. -/
inductive Labelled (i : Nat) : List ReadItem × Place → Prop
  | read {items : List ReadItem} {p : Place} {it : ReadItem} :
      items[i]? = some it → it.label ≠ none → Labelled i (items, p)
  | inLabel {items : List ReadItem} (d : Nat) (r : List (Tok Byte)) : items.length = i →
      Labelled i (items, .label d r)
  | inText {items : List ReadItem} (l : Bytes) (d : Nat) (r : List (Tok Byte)) : items.length = i →
      Labelled i (items, .text (some l) d r)

/-- Items that are complete stay as they are. -/
theorem itemStep_prefix {q q' : List ReadItem × Place} {t : Tok Byte} (h : itemStep q t = some q') :
    q.1 <+: q'.1 := by
  have htext : ∀ {items label depth read}, textStep items label depth read t = some q' →
      items <+: q'.1 := by
    intro items label depth read hstep
    rcases textStep_cases hstep with ⟨_, _, rfl⟩ | ⟨_, rfl⟩
    · exact List.prefix_rfl
    · exact List.prefix_append _ _
  unfold itemStep at h
  split at h
  · split at h
    · exact Option.some.inj h ▸ List.prefix_rfl
    · split at h
      · exact Option.some.inj h ▸ List.prefix_rfl
      · simp at h
  · split at h
    · exact Option.some.inj h ▸ List.prefix_rfl
    · split at h
      · exact Option.some.inj h ▸ List.prefix_rfl
      · exact htext h
  · split at h
    · simp at h
    · exact Option.some.inj h ▸ List.prefix_rfl
    · exact Option.some.inj h ▸ List.prefix_rfl
  · exact htext h

theorem Labelled.step {i : Nat} {q q' : List ReadItem × Place} {t : Tok Byte} (hq : Labelled i q)
    (h : itemStep q t = some q') : Labelled i q' := by
  cases hq with
  | @read items p it hit hlabel =>
      have hpre := itemStep_prefix h
      have hlt : i < items.length := (List.getElem?_eq_some_iff.mp hit).1
      obtain ⟨more, hmore⟩ := hpre
      obtain ⟨items', p'⟩ := q'
      have hitems : items ++ more = items' := hmore
      have hget : items'[i]? = some it := by
        rw [← hitems, List.getElem?_append_left hlt, hit]
      exact .read hget hlabel
  | inLabel d r hlen =>
      simp only [itemStep] at h
      split at h
      · simp at h
      · exact Option.some.inj h ▸ .inLabel _ _ hlen
      · exact Option.some.inj h ▸ .inText _ _ _ hlen
  | @inText items l d r hlen =>
      rcases textStep_cases h with ⟨d', r', rfl⟩ | ⟨text, rfl⟩
      · exact .inText l d' r' hlen
      · have hget : (items ++ [⟨some l, text⟩])[i]? = some (⟨some l, text⟩ : ReadItem) := by
          rw [← hlen, List.getElem?_concat_length]
        exact .read hget (by simp)

theorem Labelled.finish {i : Nat} {q : List ReadItem × Place} (hq : Labelled i q)
    {items : List ReadItem} (h : q.2.finish.map (q.1 ++ ·) = some items) : ∃ it, items[i]? = some it ∧ it.label ≠ none := by
  cases hq with
  | @read items' p it hit hlabel =>
      have hlt : i < items'.length := (List.getElem?_eq_some_iff.mp hit).1
      obtain ⟨more, -, rfl⟩ := Option.map_eq_some_iff.mp h
      exact ⟨it, by rw [List.getElem?_append_left hlt, hit], hlabel⟩
  | inLabel d r _ => simp [Place.finish] at h
  | @inText items' l d r hlen =>
      cases d with
      | zero =>
          obtain rfl := Option.some.inj h
          exact ⟨⟨some l, dropLayout (spell r)⟩, by rw [← hlen, List.getElem?_concat_length], by simp⟩
      | succ d => simp [Place.finish] at h

theorem Labelled.readFrom {i : Nat} {items : List ReadItem} {ts : List (Tok Byte)}
    {q : List ReadItem × Place} (hq : Labelled i q) (h : readFrom q ts = some items) :
    ∃ it, items[i]? = some it ∧ it.label ≠ none := by
  rw [Latex.readFrom] at h
  split at h
  · next items' p hrun =>
      have hend := foldlM_invariant (I := Labelled i) (fun _ _ _ hstep hq => hq.step hstep) hrun hq
      exact hend.finish h
  · exact absurd h (Option.some_ne_none _).symm

/-! ## A list of texts -/

/-- What is read of an item that has the body `u` and no label. -/
def plainItem (u : Bytes) : ReadItem := ⟨none, escape u⟩

/-- A body that begins with a bracket is read as a label, and its item not as it was
written. -/
theorem readFrom_bracket (done : List ReadItem) {u : Bytes} (hbr : u.head? = some lbr)
    (ts : List (Tok Byte)) (more : List ReadItem) :
    readFrom (done, .afterItem) (lex texCat (spaced (escape u)) ++ ts)
      ≠ some (done ++ plainItem u :: more) := by
  intro h
  obtain ⟨v, rfl⟩ : ∃ v, u = lbr :: v := by
    cases u with
    | nil => simp at hbr
    | cons c v => exact ⟨v, by rw [Option.some.inj hbr]⟩
  have hskip := run_blanks done (p := .afterItem) (Or.inr rfl) [32] (by decide)
  have hopen : (escToks lbr).foldlM itemStep (done, .afterItem) = some (done, .label 0 []) := by
    have hbracket : escToks lbr = [.chr lbr] := by decide
    have hblank : ¬ isBlank (.chr lbr) = true := by decide
    rw [hbracket, List.foldlM_cons]
    simp only [itemStep, if_neg hblank, if_true]
    rfl
  rw [lex_spaced_escape, List.flatMap_cons, List.append_assoc, readFrom_of_run hskip,
    List.append_assoc, readFrom_of_run hopen] at h
  obtain ⟨it, hit, hlabel⟩ := (Labelled.inLabel 0 [] rfl).readFrom h
  rw [List.getElem?_append_right le_rfl, Nat.sub_self] at hit
  exact hlabel (by rw [← Option.some.inj hit]; rfl)

/-- The lines of a list, read back. -/
theorem readFrom_lines (n : Nat) :
    ∀ (us : List Bytes) (q : List ReadItem × Place) (done : List ReadItem), Ready n q done →
      (∀ u ∈ us, ∀ b ∈ u.head?, isSpace b = false) →
      (readFrom q (us.flatMap (itemToks n) ++ [.chr nl]) = some (done ++ us.map plainItem) ↔
        ∀ u ∈ us, u.head? ≠ some lbr)
  | [], q, done, hq, _ => by simp [hq.last]
  | u :: us, q, done, hq, hspace => by
      have hu := hspace u List.mem_cons_self
      have hus : ∀ v ∈ us, ∀ b ∈ v.head?, isSpace b = false :=
        fun v hv => hspace v (List.mem_cons_of_mem _ hv)
      have hsplit : (u :: us).flatMap (itemToks n) ++ [.chr nl]
          = (layout n ++ [Tok.word itemWord])
            ++ (lex texCat (spaced (escape u)) ++ (us.flatMap (itemToks n) ++ [.chr nl])) := by
        simp [itemToks]
      rw [hsplit, readFrom_of_run hq.next]
      by_cases hbr : u.head? = some lbr
      · refine iff_of_false ?_ fun hall => hall u List.mem_cons_self hbr
        exact readFrom_bracket done hbr _ _
      · have hrest := readFrom_lines n us (done, afterBody u) (done ++ [plainItem u])
          (ready_afterBody n done u) hus
        rw [readFrom_of_run (run_body done hu hbr), List.map_cons]
        rw [List.append_assoc, List.singleton_append] at hrest
        rw [hrest]
        constructor
        · intro hall v hv
          rcases List.mem_cons.mp hv with rfl | hv
          · exact hbr
          · exact hall v hv
        · exact fun hall v hv => hall v (List.mem_cons_of_mem _ hv)

/-- `L.itemize` of a list of strings. -/
def itemize (texts : List Bytes) : Val := .listenv (ascii "itemize") .none (texts.map .str)

theorem groupItems_str (env : Bytes) :
    ∀ (texts : List Bytes) (i : Nat) (items : List Item),
      groupItems env i (texts.map .str) items = .ok (items ++ texts.map fun t => ⟨.nil, [.str t]⟩)
  | [], i, items => by simp [groupItems]
  | t :: texts, i, items => by
      have hstep : groupItems env i (.str t :: texts.map .str) items
          = groupItems env (i + 1) (texts.map .str) (items ++ [⟨.nil, [.str t]⟩]) := by
        rw [groupItems]
        all_goals simp
      rw [List.map_cons, hstep, groupItems_str env texts, List.map_cons, List.append_assoc]
      rfl

/-- A text as the only child. -/
theorem renderChildren_str (m : Nat) (t : Bytes) (ctx : Ctx) (who bsep : Bytes) :
    renderChildren (renderOne (m + 1)) [.str t] ctx who bsep = .ok (escape t, false) := by
  have htext : Val.depthList (Tree.toVals [.text t]) ≤ m + 1 := by
    simp [Tree.toVals, Tree.toVal, Val.depthList, Val.depth]
  have hbody := Tree.renderChildren_trees (Tree.renderOne_tree (m + 1)) htext ctx who bsep
  rw [Tree.norms, Tree.norms, List.append_nil, Tree.norm, encodeAll_chr] at hbody
  exact hbody

/-- The lines of the items. -/
theorem itemLines_str (m : Nat) (env p : Bytes) (ctx ictx : Ctx) :
    ∀ texts : List Bytes,
      R.itemLines (renderOne (m + 1)) env p ctx ictx (texts.map fun t => ⟨.nil, [.str t]⟩)
        = .ok (texts.map fun t => itemLine p [] (escape (stripLeft t)))
  | [] => rfl
  | t :: texts => by
      have hterm : termArg (renderOne (m + 1)) ctx env .nil = .ok [] := rfl
      have hrest := itemLines_str m env p ctx ictx texts
      rw [List.map_cons, R.itemLines, List.map_cons, ← stripLeft_escape]
      simp only [hterm, renderChildren_str, hrest]
      rfl

/-- `L.render` of a node. -/
theorem render_node {x : Val} {indent : Bool} {s : Bytes} {blk : Bool}
    (hnode : flattenOne (ascii "render") x = .ok [x]) (hnil : x.isNil = false)
    (h : renderOne x.depth x ⟨indent, 0⟩ = .ok (s, blk)) : render x indent = .ok s := by
  have hflat : flatten (ascii "render") [x] = .ok [x] := by
    rw [flatten, flattenFrom, if_neg (by simp [hnil]), hnode, flattenFrom]
    rfl
  have hpush : (Glue.push parSep ⟨[], false, false⟩ s blk).out.flatten = s := by
    unfold Glue.push
    split
    · simp
    · next hs => simpa using fun hne => hs (Or.inr hne)
  rw [render, renderChildren, hflat]
  change (renderItems (renderOne x.depth) ⟨indent, 0⟩ parSep [x] ⟨[], false, false⟩ >>= _) >>= _ = _
  rw [renderItems, h]
  change Except.ok (tableConcat [] _) = _
  rw [tableConcat_nil, hpush]

/-- What is written for a list of strings. -/
theorem render_itemize (texts : List Bytes) (indent : Bool) :
    render (itemize texts) indent = .ok (tableConcat (ascii "\n")
      (beginTag (ascii "itemize") ::
        (texts.map (fun t => itemLine (pad ⟨indent, 1⟩) [] (escape (stripLeft t))) ++
          [endTag (ascii "itemize")]))) := by
  -- a text needs one level more, and an empty list holds none
  have hlines : R.itemLines (renderOne (Val.depthList (texts.map .str))) (ascii "itemize")
      (pad ⟨indent, 1⟩) ⟨indent, 0⟩ ⟨indent, 2⟩ (texts.map fun t => ⟨.nil, [.str t]⟩)
        = .ok (texts.map fun t => itemLine (pad ⟨indent, 1⟩) [] (escape (stripLeft t))) := by
    cases texts with
    | nil => rfl
    | cons t texts =>
        have hdepth : 1 ≤ Val.depthList ((t :: texts).map .str) := Nat.le_max_left _ _
        obtain ⟨m, hm⟩ := Nat.exists_eq_add_of_le' hdepth
        rw [hm]
        exact itemLines_str m _ _ _ _ (t :: texts)
  have hpad : pad ⟨indent, 0⟩ = [] := by cases indent <;> rfl
  refine @render_node _ _ _ true rfl rfl ?_
  rw [itemize, Val.depth, renderOne]
  simp only [R.list, groupItems_str, List.nil_append, hpad, deeper, Nat.zero_add]
  change (R.itemLines _ _ _ _ _ _ >>= _) = _
  rw [hlines]
  change Except.ok (tableConcat _ _, true) = _
  rw [fmtOpts, List.append_nil]
  rfl

theorem sealed_spaced_escape (u : Bytes) : Sealed texCat (spaced (escape u)) := by
  unfold spaced
  split
  · exact sealed_nil
  · exact (Markup.lex_plain (M := latex) [32] (by decide)).2.append (lex_escape u).2

theorem lex_layout (n : Nat) :
    lex texCat (nl :: List.replicate n 32) = layout n ∧
      Sealed texCat (nl :: List.replicate n 32) := by
  refine Markup.lex_plain (M := latex) _ fun b hb => Or.inr ?_
  rcases List.mem_cons.mp hb with rfl | hb
  · decide
  · rw [List.eq_of_mem_replicate hb]
    decide

theorem noLetter_nl (s : Bytes) : NoLetterFirst texCat (nl :: s) := by
  rintro a ⟨⟩
  decide

theorem noLetter_spaced (s : Bytes) : NoLetterFirst texCat (spaced s) := by
  unfold spaced
  split
  · exact nofun
  · rintro a ⟨⟩
    decide

/-- The tokens of a line `\item`, in front of what begins with the end of a line. -/
theorem lex_itemLine (n : Nat) (u rest : Bytes) :
    lex texCat (nl :: itemLine (List.replicate n 32) [] (escape u) ++ nl :: rest)
      = itemToks n u ++ lex texCat (nl :: rest) := by
  have hletters : latex.Letters itemWord := ⟨by decide, by decide⟩
  have hsplit : nl :: itemLine (List.replicate n 32) [] (escape u) ++ nl :: rest
      = (nl :: List.replicate n 32)
        ++ (latex.control itemWord ++ (spaced (escape u) ++ nl :: rest)) := by
    simp [itemLine, Markup.control, latex, itemWord, ascii, bsl]
  obtain ⟨hlayout, hsealed⟩ := lex_layout n
  -- what follows `\item` is a space or the end of the line
  have hword : lex texCat (latex.control itemWord ++ (spaced (escape u) ++ nl :: rest))
      = .word itemWord :: lex texCat (spaced (escape u) ++ nl :: rest) :=
    Markup.lex_control_append hletters ((noLetter_spaced _).append (noLetter_nl rest))
  rw [hsplit, lex_append_of_sealed hsealed, hlayout, hword,
    lex_append_of_sealed (sealed_spaced_escape u), itemToks, List.append_assoc, List.cons_append]

/-- The tokens of the lines behind the first. -/
theorem lex_lines (env : Bytes) (n : Nat) :
    ∀ us : List Bytes,
      lex texCat (us.flatMap (fun u => nl :: itemLine (List.replicate n 32) [] (escape u))
          ++ nl :: endTag env)
        = us.flatMap (itemToks n) ++ .chr nl :: lex texCat (endTag env)
  | [] => by
      obtain ⟨hnl, hsealed⟩ := lex_layout 0
      have hsplit : nl :: endTag env = (nl :: List.replicate 0 32) ++ endTag env := rfl
      rw [List.flatMap_nil, List.nil_append, hsplit, lex_append_of_sealed hsealed, hnl]
      rfl
  | u :: us => by
      have hrest := lex_lines env n us
      rw [List.flatMap_cons, List.flatMap_cons, List.append_assoc, List.append_assoc, ← hrest]
      -- the next line begins with its line break
      cases us with
      | nil => exact lex_itemLine n u (endTag env)
      | cons v vs => exact lex_itemLine n u _

/-- The items that are read are those of the lines. -/
theorem readItems_lines {env : Bytes} (hbegin : Sealed texCat (beginTag env)) (n : Nat)
    (us : List Bytes) :
    readItems env (tableConcat (ascii "\n") (beginTag env ::
        (us.map (fun u => itemLine (List.replicate n 32) [] (escape u)) ++ [endTag env])))
      = readFrom ([], .before) (us.flatMap (itemToks n) ++ [.chr nl]) := by
  have hbytes : tableConcat (ascii "\n") (beginTag env ::
      (us.map (fun u => itemLine (List.replicate n 32) [] (escape u)) ++ [endTag env]))
      = beginTag env ++ (us.flatMap (fun u => nl :: itemLine (List.replicate n 32) [] (escape u))
        ++ nl :: endTag env) := by
    rw [tableConcat_cons, List.flatMap_append, List.flatMap_map, List.flatMap_singleton]
    rfl
  have hinside := insideEnv_append env (us.flatMap (itemToks n) ++ [.chr nl])
  rw [List.append_assoc, List.singleton_append] at hinside
  rw [readItems, hbytes, lex_append_of_sealed hbegin, lex_lines, hinside]
  rfl

/-- **A list of texts is read back item by item, without labels, exactly when none of them
begins with a bracket.** -/
theorem itemize_readItems_iff (texts : List Bytes) (indent : Bool) :
    (∃ s, render (itemize texts) indent = .ok s ∧
      readItems (ascii "itemize") s = some (texts.map fun t => ⟨none, stripLeft (escape t)⟩)) ↔
      ∀ t ∈ texts, (stripLeft t).head? ≠ some lbr := by
  obtain ⟨n, hn⟩ : ∃ n, pad ⟨indent, 1⟩ = List.replicate n 32 := by
    cases indent
    · exact ⟨0, rfl⟩
    · exact ⟨2, rfl⟩
  have hspace : ∀ u ∈ texts.map stripLeft, ∀ b ∈ u.head?, isSpace b = false := by
    intro u hu b hb
    obtain ⟨t, -, rfl⟩ := List.mem_map.mp hu
    have hnot := List.head?_dropWhile_not isSpace t
    rw [stripLeft] at hb
    rw [Option.mem_def.mp hb] at hnot
    exact hnot
  have hmain := readFrom_lines n (texts.map stripLeft) _ _ (ready_before n) hspace
  have hexpect : (texts.map fun t => (⟨none, stripLeft (escape t)⟩ : ReadItem))
      = [] ++ (texts.map stripLeft).map plainItem := by
    rw [List.nil_append, List.map_map]
    refine List.map_congr_left fun t _ => ?_
    rw [stripLeft_escape]
    rfl
  have hbegin : Sealed texCat (beginTag (ascii "itemize")) := by decide
  rw [← hexpect, ← readItems_lines hbegin, List.forall_mem_map, List.map_map] at hmain
  rw [← hmain, render_itemize, hn]
  constructor
  · rintro ⟨s, hs, hitems⟩
    obtain rfl := Except.ok.inj hs
    exact hitems
  · exact fun h => ⟨_, rfl, h⟩

/-- The bracketed part of a text becomes the label of its item. -/
theorem itemize_label :
    let texts : List Bytes := [ascii "[x] y"]
    ∃ s, render (itemize texts) true = .ok s ∧
      readItems (ascii "itemize") s = some [⟨some (ascii "x"), ascii " y"⟩] ∧
      readItems (ascii "itemize") s ≠ some (texts.map fun t => ⟨none, stripLeft (escape t)⟩) :=
  ⟨_, render_itemize _ _, by decide, by decide⟩

end Tmg.Latex
