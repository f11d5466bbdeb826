/-
# `Tmg.Latex.ReadBack` — inline trees, read back from what they render to

An inline tree is built from text, plain lists, fragments and commands with at least one
argument (`Tree`).  Flattened, with its strings merged, it is a sequence of bytes and
commands (`Tree.norm`, a list of `Atom`s), and rendering writes that sequence down:

    render t.toVal = .ok (encodeAll t.norm)            (`render_tree`)
    readBack (encodeAll as) = some as                   (`readBack_encodeAll`)

`readBack` is the reader of LaTeX's own rules.  It goes through the tokens with a stack
of frames, one for each open group.  A control word waits in its frame for the groups
that follow it; the first token that opens no group settles it, as one of the three words
of `escape` with its empty group, or as a command with all the groups it has collected.
-/
import Tmg.Latex.Markup

namespace Tmg.Latex

open Tmg Lib

/-! ## Trees -/

/-- A command name: letters only, and none of the words `escape` writes. -/
structure CmdName where
  bytes : Bytes
  letters : latex.Letters bytes
  notEscape : bytes ∉ escWords

/-- An inline tree; a command has at least one argument. -/
inductive Tree where
  | text (s : Bytes)
  | list (ts : List Tree)
  | frag (ts : List Tree)
  | cmd (name : CmdName) (arg : Tree) (args : List Tree)

/-- A byte of text, or a command with its arguments. -/
inductive Atom where
  | chr (c : Byte)
  | cmd (name : CmdName) (arg : List Atom) (args : List (List Atom))

namespace Tree

mutual

/-- The node of a tree. -/
def toVal : Tree → Val
  | text s => .str s
  | list ts => .list .nil (toVals ts)
  | frag ts => .frag (toVals ts)
  | cmd name arg args => .cmd name.bytes .none (toVal arg :: toVals args)

def toVals : List Tree → List Val
  | [] => []
  | t :: ts => toVal t :: toVals ts

end

mutual

/-- The tree without its lists and fragments, its strings byte by byte. -/
def norm : Tree → List Atom
  | text s => s.map .chr
  | list ts => norms ts
  | frag ts => norms ts
  | cmd name arg args => [.cmd name (norm arg) (normArgs args)]

def norms : List Tree → List Atom
  | [] => []
  | t :: ts => norm t ++ norms ts

def normArgs : List Tree → List (List Atom)
  | [] => []
  | t :: ts => norm t :: normArgs ts

end

mutual

/-- The tree as `flatten` sees it in a list of children. -/
def flat : Tree → List Tree
  | list ts => flats ts
  | text s => [text s]
  | frag ts => [frag ts]
  | cmd name arg args => [cmd name arg args]

def flats : List Tree → List Tree
  | [] => []
  | t :: ts => flat t ++ flats ts

end

end Tree

/-! ## Writing atoms -/

mutual

/-- The LaTeX of an atom. -/
def Atom.encode : Atom → Bytes
  | .chr c => (esc? c).getD [c]
  | .cmd name arg args => latex.control name.bytes ++ (latex.group (encodeAll arg) ++ encodeArgs args)

def encodeAll : List Atom → Bytes
  | [] => []
  | x :: xs => x.encode ++ encodeAll xs

def encodeArgs : List (List Atom) → Bytes
  | [] => []
  | as :: rest => latex.group (encodeAll as) ++ encodeArgs rest

end

mutual

/-- The tokens of an atom. -/
def Atom.toks : Atom → List (Tok Byte)
  | .chr c => escToks c
  | .cmd name arg args =>
      .word name.bytes :: (.opening :: (toksAll arg ++ [.closing]) ++ toksArgs args)

def toksAll : List Atom → List (Tok Byte)
  | [] => []
  | x :: xs => x.toks ++ toksAll xs

def toksArgs : List (List Atom) → List (Tok Byte)
  | [] => []
  | as :: rest => .opening :: (toksAll as ++ [.closing]) ++ toksArgs rest

end

mutual

theorem Atom.lex_encode :
    ∀ x : Atom, lex texCat x.encode = x.toks ∧ Sealed texCat x.encode
  | .chr c => lex_esc c
  | .cmd name arg args => by
      obtain ⟨hlex, hsealed⟩ := lex_encodeAll arg
      obtain ⟨hlexs, hsealeds⟩ := lex_encodeArgs args
      obtain ⟨hlexg, hsealedg⟩ := lex_texGroup hsealed.tame
      have hno : NoLetterFirst texCat (latex.group (encodeAll arg) ++ encodeArgs args) :=
        Markup.noLetter_opn (M := latex) _
      have htail : lex texCat (latex.group (encodeAll arg) ++ encodeArgs args)
          = .opening :: (toksAll arg ++ [.closing]) ++ toksArgs args := by
        rw [lex_append_of_sealed hsealedg, hlexg, hlexs, hlex]
      refine ⟨?_, ?_⟩
      · rw [Atom.encode, Atom.toks, ← htail]
        exact Markup.lex_control_append name.letters hno
      · exact Markup.sealed_control_append name.letters (List.cons_ne_nil _ _) hno
          (hsealedg.append hsealeds)

theorem lex_encodeAll :
    ∀ as : List Atom, lex texCat (encodeAll as) = toksAll as ∧ Sealed texCat (encodeAll as)
  | [] => ⟨rfl, rfl⟩
  | x :: xs => by
      obtain ⟨hlex, hsealed⟩ := x.lex_encode
      obtain ⟨hlexs, hsealeds⟩ := lex_encodeAll xs
      rw [encodeAll, toksAll, lex_append_of_sealed hsealed, hlex, hlexs]
      exact ⟨rfl, hsealed.append hsealeds⟩

theorem lex_encodeArgs :
    ∀ gs : List (List Atom),
      lex texCat (encodeArgs gs) = toksArgs gs ∧ Sealed texCat (encodeArgs gs)
  | [] => ⟨rfl, rfl⟩
  | as :: rest => by
      obtain ⟨hlex, hsealed⟩ := lex_encodeAll as
      obtain ⟨hlexs, hsealeds⟩ := lex_encodeArgs rest
      obtain ⟨hlexg, hsealedg⟩ := lex_texGroup hsealed.tame
      rw [encodeArgs, toksArgs, lex_append_of_sealed hsealedg, hlexg, hlexs, hlex]
      exact ⟨rfl, hsealedg.append hsealeds⟩

end

/-! ## The reader -/

/-- A name, if it is one. -/
def CmdName.ofBytes? (w : Bytes) : Option CmdName :=
  if h : (w ≠ [] ∧ ∀ a ∈ w, texCat a = .letter) ∧ w ∉ escWords then some ⟨w, h.1, h.2⟩ else none

/-- The byte a word of `escape` stands for. -/
def escByte? (w : Bytes) : Option Byte :=
  if w = ascii "textbackslash" then some bsl
  else if w = ascii "textasciitilde" then some 126
  else if w = ascii "textasciicircum" then some 94
  else none

/-- A control word with the groups that follow it. -/
def settleWord (w : Bytes) (gs : List (List Atom)) : Option Atom :=
  match escByte? w, gs with
  | some c, [[]] => some (.chr c)
  | some _, _ => none
  | none, arg :: args => (CmdName.ofBytes? w).map fun n => .cmd n arg args
  | none, [] => none

/-- A group that is being read: its atoms so far, and the control word that may still be
followed by groups. -/
structure Frame where
  done : List Atom
  wait : Option (Bytes × List (List Atom))

/-- The atoms of a frame when no group follows any more. -/
def Frame.settle (f : Frame) : Option (List Atom) :=
  match f.wait with
  | none => some f.done
  | some (w, gs) => (settleWord w gs).map fun x => f.done ++ [x]

/-- One token. -/
def readStep : Frame × List Frame → Tok Byte → Option (Frame × List Frame)
  | (f, st), .chr c => f.settle.map fun as => (⟨as ++ [.chr c], none⟩, st)
  | (f, st), .sym c =>
      if c ∈ ascii "&%$#_{}" then f.settle.map fun as => (⟨as ++ [.chr c], none⟩, st) else none
  | (f, st), .word w => f.settle.map fun as => (⟨as, some (w, [])⟩, st)
  | (f, st), .opening =>
      match f.wait with
      | some _ => some (⟨[], none⟩, f :: st)
      | none => none
  | (f, p :: st), .closing =>
      match p.wait with
      | some (w, gs) => f.settle.map fun as => (⟨p.done, some (w, gs ++ [as])⟩, st)
      | none => none
  | (_, []), .closing => none
  | _, .lone => none

/-- A run of tokens. -/
def readToks (q : Frame × List Frame) (ts : List (Tok Byte)) : Option (Frame × List Frame) :=
  ts.foldlM readStep q

/-- The reader: the ten sequences of `escape`, and control words with all the groups that
follow them. -/
def readBack (s : Bytes) : Option (List Atom) :=
  match readToks (⟨[], none⟩, []) (lex texCat s) with
  | some (f, []) => f.settle
  | _ => none

/-! ## Reading back -/

theorem CmdName.ofBytes?_bytes (n : CmdName) : CmdName.ofBytes? n.bytes = some n :=
  dif_pos ⟨n.letters, n.notEscape⟩

theorem escByte?_cmdName (n : CmdName) : escByte? n.bytes = none := by
  have h := n.notEscape
  simp only [escWords, List.mem_cons, List.not_mem_nil, or_false, not_or] at h
  rw [escByte?, if_neg h.1, if_neg h.2.1, if_neg h.2.2]

/-- A command is settled as itself. -/
theorem settle_cmd (as : List Atom) (n : CmdName) (arg : List Atom) (args : List (List Atom)) :
    Frame.settle ⟨as, some (n.bytes, arg :: args)⟩ = some (as ++ [.cmd n arg args]) := by
  simp [Frame.settle, settleWord, escByte?_cmdName, CmdName.ofBytes?_bytes]

theorem readToks_append (q : Frame × List Frame) (a b : List (Tok Byte)) :
    readToks q (a ++ b) = (readToks q a).bind fun q' => readToks q' b := by
  rw [readToks, List.foldlM_append]
  rfl

/-- A control word settles its frame and waits. -/
theorem readToks_word {f : Frame} {as : List Atom} (h : f.settle = some as) (w : Bytes)
    (st : List Frame) (ts : List (Tok Byte)) :
    readToks (f, st) (.word w :: ts) = readToks (⟨as, some (w, [])⟩, st) ts := by
  have hstep : readStep (f, st) (.word w) = some (⟨as, some (w, [])⟩, st) := by simp [readStep, h]
  rw [readToks, List.foldlM_cons, hstep]
  rfl

/-- The tokens are read from any frame on, adding `new` to its atoms. -/
def Adds (ts : List (Tok Byte)) (new : List Atom) : Prop :=
  ∀ f st as, Frame.settle f = some as →
    ∃ f', readToks (f, st) ts = some (f', st) ∧ f'.settle = some (as ++ new)

theorem adds_nil : Adds [] [] := fun f _ as h => ⟨f, rfl, by rw [List.append_nil]; exact h⟩

theorem Adds.append {a b : List (Tok Byte)} {x y : List Atom} (ha : Adds a x) (hb : Adds b y) :
    Adds (a ++ b) (x ++ y) := by
  intro f st as h
  obtain ⟨f₁, h1, hs1⟩ := ha f st as h
  obtain ⟨f₂, h2, hs2⟩ := hb f₁ st _ hs1
  refine ⟨f₂, ?_, by rw [hs2, List.append_assoc]⟩
  rw [readToks_append, h1]
  exact h2

/-- A group is added to the control word that waits for it. -/
theorem adds_group {ts : List (Tok Byte)} {new : List Atom} (h : Adds ts new) (as : List Atom)
    (w : Bytes) (gs : List (List Atom)) (st : List Frame) :
    readToks (⟨as, some (w, gs)⟩, st) (.opening :: (ts ++ [.closing]))
      = some (⟨as, some (w, gs ++ [new])⟩, st) := by
  obtain ⟨f', hrun, hs⟩ := h ⟨[], none⟩ (⟨as, some (w, gs)⟩ :: st) [] rfl
  rw [List.nil_append] at hs
  have hopen : readToks (⟨as, some (w, gs)⟩, st) (.opening :: (ts ++ [.closing]))
      = readToks (⟨[], none⟩, ⟨as, some (w, gs)⟩ :: st) (ts ++ [.closing]) := rfl
  rw [hopen, readToks_append, hrun]
  simp [readToks, readStep, hs]

/-- One byte of text. -/
theorem adds_escToks (c : Byte) : Adds (escToks c) [.chr c] := by
  intro f st as h
  have hword : ∀ w, escByte? w = some c →
      ∃ f', readToks (f, st) [.word w, .opening, .closing] = some (f', st) ∧
        f'.settle = some (as ++ [.chr c]) := by
    intro w hw
    refine ⟨⟨as, some (w, [[]])⟩, ?_, ?_⟩
    · rw [readToks_word h]
      rfl
    · simp [Frame.settle, settleWord, hw]
  unfold escToks
  split
  · next hc =>
      subst hc
      exact hword _ (by decide)
  · split
    · next hc =>
        exact ⟨⟨as ++ [.chr c], none⟩, by simp [readToks, readStep, h, hc], rfl⟩
    · split
      · next hc =>
          subst hc
          exact hword _ (by decide)
      · split
        · next hc =>
            subst hc
            exact hword _ (by decide)
        · exact ⟨⟨as ++ [.chr c], none⟩, by simp [readToks, readStep, h], rfl⟩

mutual

theorem Atom.adds : ∀ x : Atom, Adds x.toks [x]
  | .chr c => adds_escToks c
  | .cmd n arg args => by
      intro f st as h
      refine ⟨⟨as, some (n.bytes, arg :: args)⟩, ?_, settle_cmd as n arg args⟩
      rw [Atom.toks, readToks_word h, readToks_append, adds_group (addsAll arg)]
      exact addsArgs args as n.bytes [arg] st

theorem addsAll : ∀ as : List Atom, Adds (toksAll as) as
  | [] => adds_nil
  | x :: xs => x.adds.append (addsAll xs)

theorem addsArgs :
    ∀ (gs : List (List Atom)) (as : List Atom) (w : Bytes) (gs₀ : List (List Atom))
      (st : List Frame), readToks (⟨as, some (w, gs₀)⟩, st) (toksArgs gs)
        = some (⟨as, some (w, gs₀ ++ gs)⟩, st)
  | [], as, w, gs₀, st => by rw [List.append_nil]; rfl
  | g :: gs, as, w, gs₀, st => by
      rw [toksArgs, readToks_append, adds_group (addsAll g)]
      have h := addsArgs gs as w (gs₀ ++ [g]) st
      rw [List.append_assoc] at h
      exact h

end

/-- **What was written is read back.** -/
theorem readBack_encodeAll (as : List Atom) : readBack (encodeAll as) = some as := by
  obtain ⟨f, hrun, hs⟩ := addsAll as ⟨[], none⟩ [] [] rfl
  rw [readBack, (lex_encodeAll as).1, hrun]
  exact hs

/-! ## Rendering -/

/-- Inline pieces are glued with nothing between them. -/
theorem renderItems_inline {β : Type} (one : Val → Ctx → Except LatexError (Bytes × Bool))
    (ctx : Ctx) (bsep : Bytes) (v : β → Val) (f : β → Bytes) :
    ∀ (us : List β) (g : Glue), (∀ u ∈ us, one (v u) ctx = .ok (f u, false)) →
      g.prevBlock = false → g.anyBlock = false →
      ∃ g', renderItems one ctx bsep (us.map v) g = .ok g' ∧
        g'.out.flatten = g.out.flatten ++ us.flatMap f ∧ g'.anyBlock = false
  | [], g, _, _, hany => ⟨g, rfl, by simp, hany⟩
  | u :: us, g, h, hprev, hany => by
      have hu := h u List.mem_cons_self
      have hpush : (g.push bsep (f u) false).out.flatten = g.out.flatten ++ f u ∧
          (g.push bsep (f u) false).prevBlock = false ∧
          (g.push bsep (f u) false).anyBlock = false := by
        unfold Glue.push
        by_cases hs : f u = []
        · simp [hs, hprev, hany]
        · simp [hs, hprev, hany]
      obtain ⟨g', hrun, hout, hany'⟩ := renderItems_inline one ctx bsep v f us (g.push bsep (f u) false)
        (fun x hx => h x (List.mem_cons_of_mem _ hx)) hpush.2.1 hpush.2.2
      refine ⟨g', ?_, ?_, hany'⟩
      · rw [List.map_cons, renderItems, hu]
        exact hrun
      · rw [hout, hpush.1, List.flatMap_cons, List.append_assoc]

theorem encodeAll_append : ∀ a b : List Atom, encodeAll (a ++ b) = encodeAll a ++ encodeAll b
  | [], _ => rfl
  | x :: a, b => by rw [List.cons_append, encodeAll, encodeAll, encodeAll_append a b, List.append_assoc]

theorem encodeAll_chr : ∀ s : Bytes, encodeAll (s.map .chr) = escape s
  | [] => rfl
  | c :: s => by
      rw [List.map_cons, encodeAll, encodeAll_chr s, Atom.encode, escape, escape, List.flatMap_cons]

namespace Tree

/-- A plain list. -/
def isList : Tree → Bool
  | list _ => true
  | _ => false

theorem isNil_toVal (t : Tree) : t.toVal.isNil = false := by cases t <;> rfl

mutual

theorem flattenOne_toVal (who : Bytes) :
    ∀ t : Tree, flattenOne who (toVal t) = .ok ((flat t).map toVal)
  | list us => flattenFrom_toVals who us 1
  | text _ | frag _ | cmd _ _ _ => rfl

theorem flattenFrom_toVals (who : Bytes) :
    ∀ (ts : List Tree) (i : Nat), flattenFrom who i (toVals ts) = .ok ((flats ts).map toVal)
  | [], i => rfl
  | t :: ts, i => by
      rw [toVals, flattenFrom, if_neg (by simp [isNil_toVal]), flattenOne_toVal who t,
        flattenFrom_toVals who ts, flats, List.map_append]
      rfl

end

/-- What `flatten` finds: no lists, nothing deeper than the children, and the same atoms. -/
theorem mem_flats :
    ∀ (ts : List Tree), ∀ u ∈ flats ts, u.isList = false ∧
      u.toVal.depth ≤ Val.depthList (toVals ts)
  | [], _, h => absurd h (by simp [flats])
  | t :: ts, u, h => by
      rw [flats, List.mem_append] at h
      rw [toVals, Val.depthList]
      rcases h with h | h
      · cases t with
        | list us =>
            obtain ⟨h1, h2⟩ := mem_flats us u (by simpa [flat] using h)
            refine ⟨h1, ?_⟩
            rw [toVal, Val.depth]
            omega
        | text s =>
            obtain rfl : u = text s := by simpa [flat] using h
            exact ⟨rfl, Nat.le_max_left _ _⟩
        | frag us =>
            obtain rfl : u = frag us := by simpa [flat] using h
            exact ⟨rfl, Nat.le_max_left _ _⟩
        | cmd n a as =>
            obtain rfl : u = cmd n a as := by simpa [flat] using h
            exact ⟨rfl, Nat.le_max_left _ _⟩
      · obtain ⟨h1, h2⟩ := mem_flats ts u h
        exact ⟨h1, h2.trans (Nat.le_max_right _ _)⟩

theorem flatMap_norm : ∀ ts : List Tree, (flats ts).flatMap norm = norms ts
  | [] => rfl
  | t :: ts => by
      rw [flats, norms, List.flatMap_append, flatMap_norm ts]
      congr 1
      cases t with
      | list us => rw [flat, norm, flatMap_norm us]
      | text s => simp [flat]
      | frag us => simp [flat]
      | cmd n a as => simp [flat]

section

variable {one : Val → Ctx → Except LatexError (Bytes × Bool)} {n : Nat}

/-- Rendering the children of a tree, given that each of them renders. -/
theorem renderChildren_trees
    (hone : ∀ (t : Tree) (ctx : Ctx), t.isList = false → t.toVal.depth ≤ n →
      one t.toVal ctx = .ok (encodeAll t.norm, false))
    {ts : List Tree} (h : Val.depthList (toVals ts) ≤ n) (ctx : Ctx) (who bsep : Bytes) :
    renderChildren one (toVals ts) ctx who bsep = .ok (encodeAll (norms ts), false) := by
  have hflat : flatten who (toVals ts) = .ok ((flats ts).map toVal) := flattenFrom_toVals who ts 1
  obtain ⟨g, hrun, hout, hany⟩ := renderItems_inline one ctx bsep toVal
    (fun t => encodeAll t.norm) (flats ts) ⟨[], false, false⟩ (fun u hu =>
      hone u ctx (mem_flats ts u hu).1 ((mem_flats ts u hu).2.trans h)) rfl rfl
  have hall : ∀ us : List Tree, us.flatMap (fun t => encodeAll t.norm) = encodeAll (us.flatMap norm) := by
    intro us
    induction us with
    | nil => rfl
    | cons u us ih => rw [List.flatMap_cons, List.flatMap_cons, encodeAll_append, ih]
  rw [hall, flatMap_norm, List.flatten_nil, List.nil_append] at hout
  have hrender : renderChildren one (toVals ts) ctx who bsep
      = .ok (tableConcat [] g.out, g.anyBlock) := by
    rw [renderChildren, hflat]
    change (renderItems one ctx bsep _ _ >>= _) = _
    rw [hrun]
    rfl
  rw [hrender, tableConcat_nil, hout, hany]

theorem inlineVal_tree
    (hone : ∀ (t : Tree) (ctx : Ctx), t.isList = false → t.toVal.depth ≤ n →
      one t.toVal ctx = .ok (encodeAll t.norm, false))
    {t : Tree} (h : t.toVal.depth ≤ n) (ctx : Ctx) (who : Bytes) :
    inlineVal one t.toVal ctx who = .ok (encodeAll t.norm) := by
  have hlist : Val.depthList (toVals [t]) ≤ n := by
    rw [toVals, toVals, Val.depthList, Val.depthList]
    omega
  have hrender := renderChildren_trees hone hlist ctx who parSep
  rw [norms, norms, List.append_nil] at hrender
  rw [inlineVal]
  change (renderChildren one (toVals [t]) ctx who parSep >>= _) = _
  rw [hrender]
  rfl

theorem renderArgs_trees
    (hone : ∀ (t : Tree) (ctx : Ctx), t.isList = false → t.toVal.depth ≤ n →
      one t.toVal ctx = .ok (encodeAll t.norm, false)) (ctx : Ctx) (who : Bytes) :
    ∀ ts : List Tree, Val.depthList (toVals ts) ≤ n →
      renderArgs one ctx who (toVals ts) = .ok (encodeArgs (normArgs ts))
  | [], _ => rfl
  | t :: ts, h => by
      rw [toVals, Val.depthList] at h
      have ht := inlineVal_tree hone (t := t) (by omega) ctx who
      have hts := renderArgs_trees hone ctx who ts (by omega)
      have hnil : ¬ t.toVal.isNil = true := by simp [isNil_toVal]
      rw [toVals, renderArgs, if_neg hnil, ht, normArgs, encodeArgs]
      change (renderArgs one ctx who (toVals ts) >>= _) = _
      rw [hts]
      rfl

end

/-- `render_one` on a tree. -/
theorem renderOne_tree :
    ∀ (n : Nat) (t : Tree) (ctx : Ctx), t.isList = false → t.toVal.depth ≤ n →
      renderOne n t.toVal ctx = .ok (encodeAll t.norm, false)
  | 0, t, _, _, h => by
      exfalso
      cases t <;> simp [toVal, Val.depth] at h
  | n + 1, text s, ctx, _, _ => by
      rw [toVal, renderOne, norm, encodeAll_chr]
  | n + 1, list us, ctx, hlist, _ => absurd hlist (by simp [isList])
  | n + 1, frag us, ctx, _, h => by
      rw [toVal, Val.depth] at h
      rw [toVal, renderOne, norm]
      exact renderChildren_trees (renderOne_tree n) (by omega) ctx _ _
  | n + 1, cmd name a as, ctx, _, h => by
      rw [toVal, Val.depth] at h
      have hargs := renderArgs_trees (renderOne_tree n) ctx name.bytes (a :: as)
        (by rw [toVals]; omega)
      rw [toVals] at hargs
      rw [toVal, renderOne, norm]
      simp only [R.cmd, hargs]
      change Except.ok (ascii "\\" ++ name.bytes ++ [] ++ (latex.group _ ++ encodeArgs _), false) = _
      rw [encodeAll, encodeAll, Atom.encode, List.append_nil, List.append_nil]
      rfl

end Tree

/-- Rendering writes down the atoms of the tree. -/
theorem render_tree (t : Tree) (indent : Bool) : render t.toVal indent = .ok (encodeAll t.norm) := by
  exact Tree.inlineVal_tree (Tree.renderOne_tree t.toVal.depth) le_rfl _ _

/-- **Rendering is injective, up to the flattening of lists and the merging of strings**:
a reader of LaTeX's rules recovers the tree so normalised from the rendered string. -/
theorem render_injective :
    (∀ (t : Tree) (indent : Bool),
      ∃ s, render t.toVal indent = .ok s ∧ readBack s = some t.norm) ∧
    ∀ (t₁ t₂ : Tree) (i₁ i₂ : Bool),
      render t₁.toVal i₁ = render t₂.toVal i₂ ↔ t₁.norm = t₂.norm := by
  refine ⟨fun t i => ⟨_, render_tree t i, readBack_encodeAll _⟩, ?_⟩
  intro t₁ t₂ i₁ i₂
  rw [render_tree, render_tree, Except.ok.injEq]
  constructor
  · intro h
    have hread := readBack_encodeAll t₁.norm
    rw [h, readBack_encodeAll] at hread
    exact (Option.some.inj hread).symm
  · intro h
    rw [h]

end Tmg.Latex
