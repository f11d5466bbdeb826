/-
# `Tmg.Latex.Verbatim` — the environments that LaTeX does not read

The bodies of `verbatim` and `lstlisting` are written as they are.  LaTeX takes what stands
between the line that opens the environment and the first `\end{verbatim}`, whatever it is:

    \begin{verbatim}
    a  \b                 read as     a  \b
    c                                 c
    \end{verbatim}

`verb_check` refuses a body with the end of its environment in it.  The end that is written
cannot be anticipated across the end of the body either, since it stands on a line of its
own and holds no line break; and the line that opens the environment holds neither, if the
options hold neither (`Quoted`).  So the body is read back, in whatever the node is nested
(`readBody_within`): no renderer indents, trims or escapes what a child was rendered to.
-/
import Tmg.Lib.Search
import Tmg.Latex.Build
import Tmg.Latex.Nested

namespace Tmg.Latex

open Tmg Lib

/-! ## The constructors -/

/-- The error of `verb_check`. -/
structure VerbError where
  name : Bytes
deriving DecidableEq, Repr

/-- The text of the error, behind the position of the call. -/
def VerbError.message (e : VerbError) : Bytes :=
  ascii "latex: " ++ e.name ++ ascii " body contains " ++ endTag e.name

/-- `verb_check` -/
def verbCheck (s name : Bytes) : Except VerbError Unit :=
  if endTag name <:+: s then .error ⟨name⟩ else .ok ()

namespace L

def verbatim (s : Bytes) : Except VerbError Val := do
  verbCheck s (ascii "verbatim")
  return .verbatim s

def lstlisting (code : Bytes) (opts : OptSpec) : Except VerbError Val := do
  verbCheck code (ascii "lstlisting")
  return .lstlisting code opts.opts

end L

theorem verbCheck_bind_eq_ok_iff {s name : Bytes} {x y : Val} :
    (verbCheck s name >>= fun _ => .ok x) = .ok y ↔ ¬ endTag name <:+: s ∧ x = y := by
  rw [verbCheck]
  split
  · next h => exact iff_of_false (by rintro ⟨⟩) fun hn => hn.1 h
  · next h =>
      refine ⟨fun hx => ⟨h, Except.ok.inj hx⟩, ?_⟩
      rintro ⟨-, rfl⟩
      rfl

/-! ## The reader -/

/-- What is read of the environment at the head of `s`: what stands before the first end of
it, without the line that opens it. -/
def readBody (name s : Bytes) : Option Bytes :=
  if beginTag name <+: s then
    (cutAt (endTag name) s).map fun p => (p.1.dropWhile (· ≠ nl)).drop 1
  else none

/-- Letters between braces: no line break, no backslash. -/
structure EnvName (name : Bytes) : Prop where
  oneLine : nl ∉ endTag name
  noBackslash : bsl ∉ ascii "begin" ++ braced name

theorem envName_verbatim : EnvName (ascii "verbatim") := ⟨by decide, by decide⟩

theorem envName_lstlisting : EnvName (ascii "lstlisting") := ⟨by decide, by decide⟩

/-- A mark does not begin where its first byte does not occur. -/
theorem infix_of_infix_append {b : Byte} {p o : Bytes} :
    ∀ {w : Bytes}, b ∉ w → b :: p <:+: w ++ o → b :: p <:+: o
  | [], _, h => h
  | c :: w, hw, h => by
      rw [List.mem_cons, not_or] at hw
      rcases List.infix_cons_iff.mp h with hpre | hin
      · exact absurd (List.cons_prefix_cons.mp hpre).1 hw.1
      · exact infix_of_infix_append hw.2 hin

/-- The end of an environment does not begin in its opening. -/
theorem infix_of_infix_beginTag {name o : Bytes} (hname : EnvName name)
    (h : endTag name <:+: beginTag name ++ o) : endTag name <:+: o := by
  have hopen : beginTag name ++ o = bsl :: (ascii "begin" ++ braced name ++ o) := rfl
  have hend : endTag name = bsl :: 101 :: (ascii "nd" ++ braced name) := rfl
  rw [hopen] at h
  rcases List.infix_cons_iff.mp h with hpre | hin
  · rw [hend] at hpre
    have hsecond := (List.cons_prefix_cons.mp hpre).2
    exact absurd (List.cons_prefix_cons.mp hsecond).1 (by decide)
  · rw [hend] at hin ⊢
    exact infix_of_infix_append hname.noBackslash hin

/-- A node whose opening line and body do not hold its end is read back. -/
theorem readBody_node {name o body : Bytes} (hname : EnvName name) (hline : nl ∉ beginTag name ++ o)
    (ho : ¬ endTag name <:+: o) (hbody : ¬ endTag name <:+: body) (post : Bytes) :
    readBody name (beginTag name ++ o ++ nl :: (body ++ nl :: (endTag name ++ post)))
      = some (body ++ [nl]) := by
  have hhead : ¬ endTag name <:+: beginTag name ++ o := fun h => ho (infix_of_infix_beginTag hname h)
  have hne : endTag name ≠ [] := by simp [endTag, braced]
  have hcut := cutAt_lines hne hname.oneLine hhead hbody post
  have hrest : ∀ b ∈ beginTag name ++ o, decide (b ≠ nl) = true := fun b hb =>
    decide_eq_true fun h => hline (h ▸ hb)
  have hdrop : ∀ rest, (beginTag name ++ o ++ nl :: rest).dropWhile (· ≠ nl) = nl :: rest := by
    intro rest
    rw [List.dropWhile_append_of_pos hrest]
    simp
  rw [readBody, if_pos (by rw [List.append_assoc]; exact List.prefix_append _ _), hcut,
    Option.map_some, hdrop]
  rfl

/-! ## Options -/

/-- The strings an option list is put together from. -/
def OptVal.strings : OptVal → List Bytes
  | flag => []
  | val text => [text]

def Opts.strings : Opts → List Bytes
  | none => []
  | str s => [s]
  | tab arr fields => arr ++ fields.flatMap fun f => f.1 :: f.2.strings

/-- A text without brackets, commas and equal signs: it does not reach from one option into
the next. -/
structure InOneOption (pat : Bytes) : Prop where
  nonempty : pat ≠ []
  noBrackets : 91 ∉ pat ∧ 93 ∉ pat
  noComma : 44 ∉ pat
  noEquals : 61 ∉ pat

theorem infix_of_infix_bracketed {pat s : Bytes} (hpat : InOneOption pat)
    (h : pat <:+: bracketed s) : pat <:+: s := by
  have hs : pat <:+: s ++ 93 :: [] := by
    rcases infix_append_cons hpat.noBrackets.1 (a := []) h with hnil | hs
    · exact absurd (List.infix_nil.mp hnil) hpat.nonempty
    · exact hs
  rcases infix_append_cons hpat.noBrackets.2 hs with hs | hnil
  · exact hs
  · exact absurd (List.infix_nil.mp hnil) hpat.nonempty

theorem mem_of_infix_commas {pat : Bytes} (hpat : InOneOption pat) :
    ∀ {ss : List Bytes}, pat <:+: tableConcat (ascii ",") ss → ∃ s ∈ ss, pat <:+: s
  | [], h => absurd (List.infix_nil.mp h) hpat.nonempty
  | [s], h => ⟨s, List.mem_singleton_self s, h⟩
  | s :: t :: ss, h => by
      rcases infix_append_cons hpat.noComma h with hs | hrest
      · exact ⟨s, List.mem_cons_self, hs⟩
      · obtain ⟨u, hu, hin⟩ := mem_of_infix_commas hpat hrest
        exact ⟨u, List.mem_cons_of_mem s hu, hin⟩

theorem mem_of_infix_field {pat : Bytes} (hpat : InOneOption pat) {f : Bytes × OptVal}
    (h : pat <:+: fmtField f) : ∃ s ∈ f.1 :: f.2.strings, pat <:+: s := by
  obtain ⟨k, v⟩ := f
  cases v with
  | flag => exact ⟨k, List.mem_cons_self, h⟩
  | val text =>
      have hfield : fmtField (k, .val text) = k ++ 61 :: text := List.append_assoc _ _ _
      rw [hfield] at h
      rcases infix_append_cons hpat.noEquals h with hk | htext
      · exact ⟨k, List.mem_cons_self, hk⟩
      · exact ⟨text, List.mem_cons_of_mem k (List.mem_singleton_self text), htext⟩

/-- What is in the option list is in one of its strings. -/
theorem mem_of_infix_fmtOpts {pat : Bytes} (hpat : InOneOption pat) {opts : Opts}
    (h : pat <:+: fmtOpts opts) : ∃ s ∈ opts.strings, pat <:+: s := by
  cases opts with
  | none => exact absurd (List.infix_nil.mp h) hpat.nonempty
  | str s =>
      rw [fmtOpts] at h
      split at h
      · exact absurd (List.infix_nil.mp h) hpat.nonempty
      · exact ⟨s, List.mem_singleton_self s, infix_of_infix_bracketed hpat h⟩
  | tab arr fields =>
      rw [fmtOpts] at h
      split at h
      · exact absurd (List.infix_nil.mp h) hpat.nonempty
      · obtain ⟨part, hpart, hin⟩ :=
          mem_of_infix_commas hpat (infix_of_infix_bracketed hpat h)
        rcases List.mem_append.mp hpart with harr | hfield
        · exact ⟨part, List.mem_append_left _ harr, hin⟩
        · obtain ⟨f, hf, rfl⟩ := List.mem_map.mp hfield
          obtain ⟨s, hs, hsin⟩ := mem_of_infix_field hpat hin
          refine ⟨s, List.mem_append_right _ (List.mem_flatMap.mpr ⟨f, ?_, hs⟩), hsin⟩
          exact (List.mem_insertionSort _).mp hf

/-! ## The body, read back -/

/-- A node that one of the two constructors accepts, the name of its environment and its
body; the options of a listing hold no line break and not the end of the environment. -/
inductive Quoted : Val → Bytes → Bytes → Prop
  | verbatim {s x} : L.verbatim s = .ok x → Quoted x (ascii "verbatim") s
  | lstlisting {code opts x} : L.lstlisting code opts = .ok x →
      (∀ o ∈ opts.opts.strings, nl ∉ o ∧ ¬ endTag (ascii "lstlisting") <:+: o) →
      Quoted x (ascii "lstlisting") code

theorem inOneOption_nl : InOneOption [nl] := ⟨by decide, by decide, by decide, by decide⟩

theorem inOneOption_lstlisting : InOneOption (endTag (ascii "lstlisting")) :=
  ⟨by decide, by decide, by decide, by decide⟩

/-- How such a node is written, at whatever depth. -/
theorem Quoted.written {x : Val} {name body : Bytes} (h : Quoted x name body) :
    EnvName name ∧ ¬ endTag name <:+: body ∧ x.isMarkup = true ∧ x.isEntry = false ∧
      ∃ o, nl ∉ beginTag name ++ o ∧ ¬ endTag name <:+: o ∧
        ∀ ctx, renderNode x ctx
          = .ok (beginTag name ++ o ++ nl :: (body ++ nl :: endTag name), true) := by
  cases h with
  | verbatim hx =>
      obtain ⟨hbody, rfl⟩ := verbCheck_bind_eq_ok_iff.mp hx
      refine ⟨envName_verbatim, hbody, rfl, rfl, [], by decide, by decide, fun ctx => ?_⟩
      rw [renderNode_eq]
      simp [renderStep, R.verbatim, nl, ascii]
  | @lstlisting _ opts _ hx hopts =>
      obtain ⟨hbody, rfl⟩ := verbCheck_bind_eq_ok_iff.mp hx
      refine ⟨envName_lstlisting, hbody, rfl, rfl, fmtOpts opts.opts, ?_, ?_, fun ctx => ?_⟩
      · intro hnl
        rcases List.mem_append.mp hnl with hnl | hnl
        · exact absurd hnl (by decide)
        · obtain ⟨s, hs, hin⟩ :=
            mem_of_infix_fmtOpts inOneOption_nl ((List.singleton_infix_iff nl _).mpr hnl)
          exact (hopts s hs).1 ((List.singleton_infix_iff nl s).mp hin)
      · intro hend
        obtain ⟨s, hs, hin⟩ := mem_of_infix_fmtOpts inOneOption_lstlisting hend
        exact (hopts s hs).2 hin
      · rw [renderNode_eq]
        simp [renderStep, R.lstlisting, nl, ascii]

/-- **A body that is accepted is read back**, with the line break behind it, in whatever
the node is nested. -/
theorem readBody_within {x y : Val} {name body : Bytes} (hx : Quoted x name body)
    (hy : Within x y) {indent : Bool} {out : Bytes} (hout : render y indent = .ok out) :
    ∃ node pre post, (∀ ctx, renderNode x ctx = .ok (node, true)) ∧ out = pre ++ (node ++ post) ∧
      readBody name (node ++ post) = some (body ++ [nl]) := by
  obtain ⟨hname, hbody, hmarkup, hentry, o, hline, ho, hnode⟩ := hx.written
  have hsolid : ∀ b ∈ (beginTag name ++ o ++ nl :: (body ++ nl :: endTag name)).head?,
      isSpace b = false := by
    intro b hb
    obtain rfl : bsl = b := Option.some.inj hb
    decide
  have hbears : Bears (beginTag name ++ o ++ nl :: (body ++ nl :: endTag name)) x := by
    refine bears_node hmarkup hentry fun ctx => ?_
    rw [← renderNode_eq, hnode ctx]
    exact returns_ok List.infix_rfl
  obtain ⟨pre, post, hin⟩ := hy.infix_render hsolid hbears hout
  refine ⟨_, pre, post, hnode, ?_, ?_⟩
  · rw [← hin, List.append_assoc]
  · have hread := readBody_node hname hline ho hbody post
    simpa using hread

def listedBody : Bytes := ascii "a\n  \\b"

/-- A verbatim text in an item, in a section. -/
def listed : Val :=
  .sec (ascii "section") false none none [.str (ascii "T")]
    [.listenv (ascii "itemize") .none [.list .nil [.str (ascii "t"), .verbatim listedBody]]]

def listedText : Bytes :=
  ascii "\\section{T}\n\n\\begin{itemize}\n  \\item t\n" ++
    ascii "\\begin{verbatim}\na\n  \\b\n\\end{verbatim}\n\\end{itemize}"

theorem render_listed : render listed true = .ok listedText := by decide

theorem within_listed : Within (.verbatim listedBody) listed :=
  .head (.list (List.mem_cons_of_mem _ (List.mem_singleton_self _)))
    (.head (.entry (List.mem_singleton_self _)) (.single (.sec (List.mem_singleton_self _))))

theorem readBody_within_listed :
    ∃ node pre post, (∀ ctx, renderNode (.verbatim listedBody) ctx = .ok (node, true)) ∧
      listedText = pre ++ (node ++ post) ∧
      readBody (ascii "verbatim") (node ++ post) = some (listedBody ++ [nl]) :=
  readBody_within (.verbatim rfl) within_listed render_listed

end Tmg.Latex
