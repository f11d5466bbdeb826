/-
# `Tmg.Latex.OptionalArg` — text between brackets

The term of an item and the short title of a section are text in an optional argument.
LaTeX reads that to the first closing bracket outside braces, and `escape`, which is made
for text between braces, leaves brackets alone:

    L.item{ term = "a", "b" }        \item[a] b         read as  a     and  b
    L.item{ term = "a]b", "c" }      \item[a]b] c       read as  a     and  b] c

Every brace that `escape` writes of its own accord is closed at once, so the braces are no
concern: the argument is read back, and what follows it with it, exactly where the text
has no closing bracket (`optionalArg_iff`).  The three renderers that write a bracket
write it directly behind the command (`optionalArg_text_iff`).
-/
import Tmg.Latex.Items
import Tmg.Latex.Total
import Tmg.Latex.Children

namespace Tmg.Latex

open Tmg Lib

/-! ## The reader -/

/-- The argument that a bracket ends, and what follows the bracket. -/
def readArg : Nat × List (Tok Byte) → List (Tok Byte) → Option (List (Tok Byte) × List (Tok Byte))
  | _, [] => none
  | q, t :: ts =>
      match argStep q t with
      | none => none
      | some (.inl q) => readArg q ts
      | some (.inr arg) => some (arg, ts)

/-- The optional argument at the head of a string, and what follows it. -/
def optionalArg (s : Bytes) : Option (Bytes × Bytes) :=
  match lex texCat s with
  | .chr c :: ts =>
      if c = lbr then (readArg (0, []) ts).map fun (arg, rest) => (spell arg, spell rest) else none
  | _ => none

/-! ## Escaped text -/

theorem lex_chr_cons {c : Byte} (hc : texCat c = .other) (s : Bytes) :
    lex texCat (c :: s) = .chr c :: lex texCat s := by
  obtain ⟨hlex, hsealed⟩ := Markup.lex_plain (M := latex) [c]
    (List.forall_mem_singleton.mpr (Or.inr hc))
  have happ := lex_append_of_sealed hsealed s
  rw [hlex] at happ
  exact happ

/-- The tokens of one byte of text are read, if it is no closing bracket. -/
theorem readArg_escToks {c : Byte} (hc : c ≠ rbr) (read ts : List (Tok Byte)) :
    readArg (0, read) (escToks c ++ ts) = readArg (0, read ++ escToks c) ts := by
  rcases escToks_cases c with ⟨w, -, -, htoks⟩ | ⟨-, htoks⟩ | ⟨-, -, htoks⟩
  · simp [htoks, readArg, argStep]
  · simp [htoks, readArg, argStep]
  · simp [htoks, readArg, argStep, hc]

theorem readArg_text (ts : List (Tok Byte)) :
    ∀ (u : Bytes) (read : List (Tok Byte)), rbr ∉ u →
      readArg (0, read) (u.flatMap escToks ++ .chr rbr :: ts) = some (read ++ u.flatMap escToks, ts)
  | [], read, _ => by simp [readArg, argStep]
  | c :: u, read, h => by
      rw [List.mem_cons, not_or] at h
      rw [List.flatMap_cons, List.append_assoc, readArg_escToks (Ne.symm h.1), readArg_text ts u _ h.2,
        List.append_assoc]

/-- An optional argument with the tokens of a text in it. -/
theorem optionalArg_of_text (v : Bytes) (rest : Bytes) (h : rbr ∉ v) :
    optionalArg (lbr :: (escape v ++ rbr :: rest)) = some (escape v, rest) := by
  have hrest : lex texCat (escape v ++ rbr :: rest)
      = v.flatMap escToks ++ .chr rbr :: lex texCat rest := by
    rw [lex_append_of_sealed (lex_escape v).2, (lex_escape v).1, lex_chr_cons (by decide)]
  rw [optionalArg, lex_chr_cons (by decide), hrest]
  simp only [if_pos, readArg_text _ v [] h, List.nil_append, Option.map_some, spell_escToks,
    spell_lexText]

theorem escape_append (u v : Bytes) : escape (u ++ v) = escape u ++ escape v :=
  List.flatMap_append ..

/-- **Text in an optional argument is read back** exactly where it has no closing bracket. -/
theorem optionalArg_iff (u rest : Bytes) :
    optionalArg (bracketed (escape u) ++ rest) = some (escape u, rest) ↔ rbr ∉ u := by
  have hbracket : ∀ v w : Bytes, bracketed v ++ w = lbr :: (v ++ rbr :: w) := by
    intro v w
    simp [bracketed, lbr, rbr]
  constructor
  · intro h hmem
    -- the argument ends at the first bracket of the text
    obtain ⟨v, w, rfl, hv⟩ := List.eq_append_cons_of_mem hmem
    have hesc : escape (v ++ rbr :: w) = escape v ++ rbr :: escape w := by
      rw [escape_append]
      rfl
    have hshort := optionalArg_of_text v (escape w ++ rbr :: rest) hv
    rw [hbracket, hesc, List.append_assoc, List.cons_append, hshort] at h
    have hlen := congrArg (List.length ∘ Prod.fst) (Option.some.inj h)
    simp at hlen
  · intro h
    rw [hbracket, optionalArg_of_text u rest h]

/-! ## The renderers that write a bracket -/

/-- The text between the brackets is read back, and what follows them is left. -/
def ReadsBack (u after : Bytes) : Prop :=
  optionalArg (bracketed (escape u) ++ after) = some (escape u, after)

theorem inlineVal_str (u : Bytes) (ctx : Ctx) (who : Bytes) :
    inlineVal renderNode (.str u) ctx who = .ok (escape u) := by
  refine (inlineVal_eq_ok_iff renderNode).mpr ⟨rfl, [(escape u, false)],
    .cons (renderNode_eq (.str u) ctx) .nil, ?_⟩
  rw [glued_of_inline parSep rfl, List.flatMap_singleton]

theorem termArg_str (u : Bytes) (ctx : Ctx) (who : Bytes) :
    termArg renderNode ctx who (.str u) = .ok (bracketed (escape u)) := by
  have hterm : (Val.str u).truthy = true := rfl
  rw [termArg, if_pos hterm, inlineVal_str]
  rfl

theorem item_optionalArg (u : Bytes) {cs : List Val} {ctx : Ctx} {r : Bytes × Bool}
    (h : renderNode (.item (.str u) cs) ctx = .ok r) :
    ∃ after, r.1 = pad ctx ++ ascii "\\item" ++ (bracketed (escape u) ++ after) := by
  rw [renderNode_eq] at h
  obtain ⟨t, ht, h⟩ := bind_eq_ok_iff.mp h
  obtain ⟨body, -, h⟩ := bind_eq_ok_iff.mp h
  rw [termArg_str] at ht
  rw [← Except.ok.inj h, ← Except.ok.inj ht]
  exact ⟨_, List.append_assoc ..⟩

theorem sec_optionalArg (u : Bytes) {cmd : Bytes} {star : Bool} {label : Option Bytes}
    {title cs : List Val} {ctx : Ctx} {r : Bytes × Bool}
    (h : renderNode (.sec cmd star (some u) label title cs) ctx = .ok r) :
    ∃ after, r.1 = ascii "\\" ++ cmd ++ (if star then ascii "*" else [])
      ++ (bracketed (escape u) ++ after) := by
  rw [renderNode_eq] at h
  obtain ⟨t, -, h⟩ := bind_eq_ok_iff.mp h
  obtain ⟨body, -, h⟩ := bind_eq_ok_iff.mp h
  let labelled := braced t.1 ++ (label.map fun l => ascii "\n\\label" ++ braced l).getD []
  refine ⟨labelled ++ if body.1 = [] then [] else ascii "\n\n" ++ body.1, ?_⟩
  rw [← Except.ok.inj h]
  cases label <;> by_cases hbody : body.1 = [] <;> simp [labelled, hbody, R.optArg]

/-! ### A list environment -/

/-- What a child does to the items before it, if it is not nil. -/
def openItem (c : Val) (items : List Item) : List Item :=
  match c with
  | .listenv e o its =>
      if items.length > 0 then addToLast (.listenv e o its) items
      else items ++ [⟨.nil, [.listenv e o its]⟩]
  | .list term its => items ++ [⟨term, Val.trim its⟩]
  | .item term its => items ++ [⟨term, Val.trim its⟩]
  | c => items ++ [⟨.nil, [c]⟩]

theorem groupItems_cons {c : Val} (hc : c.isNil = false) (env : Bytes) (i : Nat) (rest : List Val)
    (items : List Item) :
    groupItems env i (c :: rest) items = groupItems env (i + 1) rest (openItem c items) := by
  cases c with
  | nil => exact absurd hc.symm Bool.false_ne_true
  | listenv e o its =>
      rw [groupItems, openItem]
      split <;> rfl
  | _ => rfl

/-- The items before a child are grouped without it. -/
theorem groupItems_append (env : Bytes) {c : Val} (hc : c.isNil = false) (post : List Val)
    (its : List Item) :
    ∀ (pre : List Val) (i : Nat) (acc : List Item),
      groupItems env i (pre ++ c :: post) acc = .ok its →
        ∃ items, groupItems env i pre acc = .ok items ∧
          groupItems env (i + pre.length) (c :: post) items = .ok its
  | [], i, acc, h => ⟨acc, rfl, h⟩
  | d :: pre, i, acc, h => by
      rw [List.cons_append] at h
      cases hd : d.isNil with
      | true =>
          cases d with
          | nil =>
              have hnot : Val.allNil (pre ++ c :: post) = false := by simp [Val.allNil, hc]
              rw [groupItems, hnot] at h
              cases h
          | _ => exact absurd hd Bool.false_ne_true
      | false =>
          rw [groupItems_cons hd] at h
          obtain ⟨items, hitems, hrest⟩ := groupItems_append env hc post its pre (i + 1) _ h
          refine ⟨items, by rw [groupItems_cons hd, hitems], ?_⟩
          rwa [List.length_cons, Nat.add_comm pre.length, ← Nat.add_assoc]

theorem addToLast_append (c : Val) {rest : List Item} (hrest : rest ≠ []) :
    ∀ items : List Item, addToLast c (items ++ rest) = items ++ addToLast c rest
  | [] => rfl
  | x :: items => by
      obtain ⟨y, ys, hy⟩ : ∃ y ys, items ++ rest = y :: ys :=
        List.exists_cons_of_ne_nil (by simp [hrest])
      rw [List.cons_append, hy, addToLast, ← hy, addToLast_append c hrest items]
      rfl

/-- An item that is there stays, though it may be given further parts. -/
theorem openItem_keeps (c : Val) (items : List Item) (t : Val) (parts : List Val)
    (more : List Item) :
    ∃ parts' more', openItem c (items ++ ⟨t, parts⟩ :: more) = items ++ ⟨t, parts'⟩ :: more' := by
  have hpush : ∀ y : Item, (items ++ ⟨t, parts⟩ :: more) ++ [y]
      = items ++ ⟨t, parts⟩ :: (more ++ [y]) := by
    intro y
    rw [List.append_assoc, List.cons_append]
  cases c with
  | listenv e o its =>
      have hpos : (items ++ ⟨t, parts⟩ :: more).length > 0 := by
        rw [List.length_append, List.length_cons]
        omega
      rw [openItem, if_pos hpos, addToLast_append _ (List.cons_ne_nil _ _)]
      cases more with
      | nil => exact ⟨_, [], rfl⟩
      | cons y more => exact ⟨parts, _, rfl⟩
  | _ => exact ⟨parts, _, hpush _⟩

theorem groupItems_keeps (env : Bytes) (items : List Item) (t : Val) (its : List Item) :
    ∀ (rest : List Val) (i : Nat) (parts : List Val) (more : List Item),
      groupItems env i rest (items ++ ⟨t, parts⟩ :: more) = .ok its →
        ∃ parts' more', its = items ++ ⟨t, parts'⟩ :: more'
  | [], i, parts, more, h => ⟨parts, more, (Except.ok.inj h).symm⟩
  | c :: rest, i, parts, more, h => by
      cases hc : c.isNil with
      | true =>
          cases c with
          | nil =>
              rw [groupItems] at h
              split at h
              · exact ⟨parts, more, (Except.ok.inj h).symm⟩
              · cases h
          | _ => exact absurd hc Bool.false_ne_true
      | false =>
          obtain ⟨parts', more', hopen⟩ := openItem_keeps c items t parts more
          rw [groupItems_cons hc, hopen] at h
          exact groupItems_keeps env items t its rest (i + 1) parts' more' h

/-- The line of an item with a text for its term. -/
theorem list_optionalArg (u : Bytes) {name : Bytes} {opts : Opts} {pre post parts : List Val} {it : Val}
    (hit : it = .list (.str u) parts ∨ it = .item (.str u) parts) {ctx : Ctx} {r : Bytes × Bool}
    (h : renderNode (.listenv name opts (pre ++ it :: post)) ctx = .ok r) :
    ∃ items ls after, groupItems name 1 pre [] = .ok items ∧ ls.length = items.length ∧
      r.1 = tableConcat (ascii "\n") ((pad ctx ++ beginTag name ++ fmtOpts opts) :: ls)
        ++ (ascii "\n" ++ pad (deeper ctx 1) ++ ascii "\\item") ++ (bracketed (escape u) ++ after) := by
  have hnil : it.isNil = false := by rcases hit with rfl | rfl <;> rfl
  have hopen : ∀ items, openItem it items = items ++ [⟨.str u, Val.trim parts⟩] := by
    rcases hit with rfl | rfl <;> exact fun _ => rfl
  rw [renderNode_eq] at h
  obtain ⟨its, hits, h⟩ := bind_eq_ok_iff.mp h
  obtain ⟨lines, hlines, h⟩ := bind_eq_ok_iff.mp h
  obtain ⟨items, hitems, hrest⟩ := groupItems_append name hnil post its pre 1 [] hits
  rw [groupItems_cons hnil, hopen] at hrest
  obtain ⟨parts', more, rfl⟩ := groupItems_keeps name items (.str u) its post _ _ [] hrest
  obtain ⟨ls, rest, hls, hmore, rfl⟩ := forall₂_append_left
    ((itemLines_eq_ok_iff renderNode name _ ctx _ _ _).mp hlines)
  obtain ⟨l, ls', ⟨t, body, ht, -, rfl⟩, -, rfl⟩ := List.forall₂_cons_left_iff.mp hmore
  rw [termArg_str] at ht
  rw [← Except.ok.inj h, ← Except.ok.inj ht]
  refine ⟨items, ls, spaced (stripLeft body.1)
    ++ (ls' ++ [pad ctx ++ endTag name]).flatMap (ascii "\n" ++ ·), hitems, hls.length_eq.symm, ?_⟩
  simp [tableConcat_cons, itemLine]

/-- **A text in an optional argument is read back**, whichever of the three renderers wrote
it, exactly where it has no closing bracket. -/
theorem optionalArg_text_iff (u : Bytes) :
    (∀ cs ctx r, renderNode (.item (.str u) cs) ctx = .ok r →
      ∃ after, r.1 = pad ctx ++ ascii "\\item" ++ (bracketed (escape u) ++ after) ∧
        (ReadsBack u after ↔ rbr ∉ u)) ∧
    (∀ name opts pre it parts post ctx r, it = .list (.str u) parts ∨ it = .item (.str u) parts →
      renderNode (.listenv name opts (pre ++ it :: post)) ctx = .ok r →
        ∃ items ls after, groupItems name 1 pre [] = .ok items ∧ ls.length = items.length ∧
          r.1 = tableConcat (ascii "\n") ((pad ctx ++ beginTag name ++ fmtOpts opts) :: ls)
            ++ (ascii "\n" ++ pad (deeper ctx 1) ++ ascii "\\item")
            ++ (bracketed (escape u) ++ after) ∧ (ReadsBack u after ↔ rbr ∉ u)) ∧
    (∀ cmd star label title cs ctx r, renderNode (.sec cmd star (some u) label title cs) ctx = .ok r →
      ∃ after, r.1 = ascii "\\" ++ cmd ++ (if star then ascii "*" else [])
          ++ (bracketed (escape u) ++ after) ∧ (ReadsBack u after ↔ rbr ∉ u)) := by
  refine ⟨?_, ?_, ?_⟩
  · intro cs ctx r h
    obtain ⟨after, hr⟩ := item_optionalArg u h
    exact ⟨after, hr, optionalArg_iff u after⟩
  · intro name opts pre it parts post ctx r hit h
    obtain ⟨items, ls, after, hitems, hlen, hr⟩ := list_optionalArg u hit h
    exact ⟨items, ls, after, hitems, hlen, hr, optionalArg_iff u after⟩
  · intro cmd star label title cs ctx r h
    obtain ⟨after, hr⟩ := sec_optionalArg u h
    exact ⟨after, hr, optionalArg_iff u after⟩

/-- `\item[a] b` -/
theorem optionalArg_text_a :
    ∃ after, ascii "\\item[a] b" = pad ⟨true, 0⟩ ++ ascii "\\item"
        ++ (bracketed (escape (ascii "a")) ++ after) ∧ (ReadsBack (ascii "a") after ↔ rbr ∉ ascii "a") :=
  (optionalArg_text_iff (ascii "a")).1 [.str (ascii "b")] ⟨true, 0⟩ (ascii "\\item[a] b", true)
    (by decide)

/-- A bracket in the term of an item ends the argument. -/
theorem item_bracket :
    render (.item (.str (ascii "a]b")) [.str (ascii "c")]) true = .ok (ascii "\\item[a]b] c") ∧
      optionalArg (ascii "[a]b] c") = some (ascii "a", ascii "b] c") := by
  decide

end Tmg.Latex
