/-
# `Tmg.Latex.TwoRuns` — two runs of the renderers, side by side

The renderers call `render_one` on their children and write what it gives them between
braces, lines and indentation.  Two runs of one renderer, with two functions for the
children and in two contexts, therefore write related strings whenever the children do,
for every relation `S` that the writing respects (`Layout`):

    one c ctx ~ one' c ctx'  →  R.env one … ctx ~ R.env one' … ctx'

There is one lemma for each function of `Tmg.Latex.Render`, and `coupled_step` for a turn
of `render_one`.  The relation has to say when a piece is empty, since `render_children`,
`R.env`, `R.sec`, `R.item`, `R.list` and `R.document` ask that.

| relation | what follows |
| :-- | :-- |
| equality | the fuel of `renderOne` never runs out (`Tmg.Latex.Total`) |
| equality up to spaces | `indent` changes nothing but spaces (`Tmg.Latex.Indent`) |
-/
import Tmg.Latex.Render
import Tmg.Lib.Outcome
import Mathlib.Data.List.Forall2

namespace Tmg.Latex

open Tmg Lib

/-! ## Depth and flattening -/

theorem Val.depthList_le {n : Nat} : ∀ cs : List Val, depthList cs ≤ n ↔ ∀ c ∈ cs, c.depth ≤ n
  | [] => by simp [depthList]
  | c :: cs => by simp [depthList, depthList_le cs]

/-- Lists and items pass `A` on to what they are made of. -/
structure Hereditary (A : Val → Prop) : Prop where
  list : ∀ t items, A (.list t items) → A t ∧ ∀ c ∈ items, A c
  item : ∀ t cs, A (.item t cs) → A t ∧ ∀ c ∈ cs, A c

theorem hereditary_depth (n : Nat) : Hereditary (·.depth ≤ n) where
  list t items h := by
    simp only [Val.depth] at h
    exact ⟨by omega, (Val.depthList_le items).mp (by omega)⟩
  item t cs h := by
    simp only [Val.depth] at h
    exact ⟨by omega, (Val.depthList_le cs).mp (by omega)⟩

variable {A : Val → Prop}

mutual

theorem returns_flattenOne (hA : Hereditary A) (who : Bytes) (c : Val) (h : A c) :
    Returns (fun items => ∀ d ∈ items, A d) (flattenOne who c) := by
  cases c with
  | list t items => exact returns_flattenFrom hA who items 1 (hA.list t items h).2
  | _ => exact returns_ok (List.forall_mem_singleton.mpr h)

/-- What `flatten` finds among the children has what all of them have. -/
theorem returns_flattenFrom (hA : Hereditary A) (who : Bytes) :
    ∀ (cs : List Val) (i : Nat), (∀ c ∈ cs, A c) →
      Returns (fun items => ∀ c ∈ items, A c) (flattenFrom who i cs)
  | [], _, _ => returns_ok nofun
  | c :: cs, i, h => by
      rw [List.forall_mem_cons] at h
      rw [flattenFrom]
      split
      · split
        · exact returns_ok nofun
        · exact returns_error _
      · refine (returns_flattenOne hA who c h.1).bind fun a ha =>
          (returns_flattenFrom hA who cs (i + 1) h.2).bind fun b hb => returns_ok ?_
        exact List.forall_mem_append.mpr ⟨ha, hb⟩

end

/-- An entry of a list environment whose term, if there is one, and parts have `A`. -/
def Item.All (A : Val → Prop) (it : Item) : Prop :=
  (it.term.truthy = true → A it.term) ∧ ∀ c ∈ it.parts, A c

theorem all_addToLast {it : Val} (hit : A it) :
    ∀ items : List Item, (∀ x ∈ items, x.All A) → ∀ x ∈ addToLast it items, x.All A
  | [], h => h
  | [x], h => by
      rw [addToLast]
      rw [List.forall_mem_singleton] at h ⊢
      exact ⟨h.1, List.forall_mem_append.mpr ⟨h.2, List.forall_mem_singleton.mpr hit⟩⟩
  | x :: y :: items, h => by
      rw [addToLast]
      rw [List.forall_mem_cons] at h ⊢
      exact ⟨h.1, all_addToLast hit (y :: items) h.2⟩

theorem Val.mem_of_mem_trim {c : Val} : ∀ {cs : List Val}, c ∈ Val.trim cs → c ∈ cs
  | [], h => h
  | d :: cs, h => by
      rw [trim] at h
      split at h
      · exact absurd h List.not_mem_nil
      · rcases List.mem_cons.mp h with rfl | h
        · exact List.mem_cons_self
        · exact List.mem_cons_of_mem _ (mem_of_mem_trim h)

theorem returns_groupItems (hA : Hereditary A) (env : Bytes) (i : Nat) (rest : List Val) (items : List Item) :
    (∀ c ∈ rest, A c) → (∀ x ∈ items, x.All A) →
      Returns (fun items => ∀ x ∈ items, x.All A) (groupItems env i rest items) := by
  have hsnoc : ∀ (items : List Item) (x : Item), (∀ y ∈ items, y.All A) → x.All A →
      ∀ y ∈ items ++ [x], y.All A := fun items x h hx =>
    List.forall_mem_append.mpr ⟨h, List.forall_mem_singleton.mpr hx⟩
  have hsingle : ∀ c, A c → Item.All A ⟨.nil, [c]⟩ := fun c hc =>
    ⟨nofun, List.forall_mem_singleton.mpr hc⟩
  fun_induction groupItems env i rest items with
  | case1 => exact fun _ h => returns_ok h
  | case2 => exact fun _ h => returns_ok h
  | case3 => exact fun _ _ => returns_error _
  | case4 i rest items e o its hpos ih =>
      intro hrest h
      rw [List.forall_mem_cons] at hrest
      exact ih hrest.2 (all_addToLast hrest.1 items h)
  | case5 i rest items e o its hpos ih =>
      intro hrest h
      rw [List.forall_mem_cons] at hrest
      exact ih hrest.2 (hsnoc items _ h (hsingle _ hrest.1))
  | case6 i rest items term its ih =>
      intro hrest h
      rw [List.forall_mem_cons] at hrest
      obtain ⟨hterm, hits⟩ := hA.list term its hrest.1
      exact ih hrest.2 (hsnoc items _ h ⟨fun _ => hterm, fun c hc => hits c (Val.mem_of_mem_trim hc)⟩)
  | case7 i rest items term its ih =>
      intro hrest h
      rw [List.forall_mem_cons] at hrest
      obtain ⟨hterm, hits⟩ := hA.item term its hrest.1
      exact ih hrest.2 (hsnoc items _ h ⟨fun _ => hterm, fun c hc => hits c (Val.mem_of_mem_trim hc)⟩)
  | case8 i rest items c _ _ _ _ ih =>
      intro hrest h
      rw [List.forall_mem_cons] at hrest
      exact ih hrest.2 (hsnoc items _ h (hsingle c hrest.1))

/-! ## No fuel is used -/

mutual

theorem flattenOne_ne_depth (who : Bytes) (c : Val) : flattenOne who c ≠ .error .depth := by
  cases c with
  | list t items => exact flattenFrom_ne_depth who items 1
  | _ => exact nofun

theorem flattenFrom_ne_depth (who : Bytes) :
    ∀ (cs : List Val) (i : Nat), flattenFrom who i cs ≠ .error .depth
  | [], _ => nofun
  | c :: cs, i => by
      have hc := flattenOne_ne_depth who c
      have hcs := flattenFrom_ne_depth who cs (i + 1)
      rw [flattenFrom]
      split
      · split <;> exact nofun
      · cases ha : flattenOne who c with
        | error e => exact fun heq => hc (ha.trans heq)
        | ok a =>
            cases hb : flattenFrom who (i + 1) cs with
            | error e => exact fun heq => hcs (hb.trans heq)
            | ok b => exact nofun

end

theorem groupItems_ne_depth (env : Bytes) (i : Nat) (rest : List Val) (items : List Item) :
    groupItems env i rest items ≠ .error .depth := by
  fun_induction groupItems env i rest items with
  | case1 => exact nofun
  | case2 => exact nofun
  | case3 => exact nofun
  | case4 _ _ _ _ _ _ _ ih => exact ih
  | case5 _ _ _ _ _ _ _ ih => exact ih
  | case6 _ _ _ _ _ ih => exact ih
  | case7 _ _ _ _ _ ih => exact ih
  | case8 _ _ _ _ _ _ _ _ ih => exact ih

theorem headerLen_ne_depth (header : Val) : headerLen header ≠ .error .depth := by
  unfold headerLen
  repeat' split
  all_goals exact nofun

theorem ncols_ne_depth (t : TabCfg Val) : ncols t ≠ .error .depth := by
  have hlen := headerLen_ne_depth t.header
  unfold ncols
  split
  · cases hn : headerLen t.header with
    | error e => exact fun heq => hlen (hn.trans (congrArg Except.error (Except.error.inj heq)))
    | ok n => exact nofun
  · exact nofun

/-! ## Layout -/

/-- A relation `S` between what two runs write, in contexts related by `C`, that writing
respects: the same text on both sides is related, and so is related text behind related
text, without the blanks at its head, or indented. -/
structure Layout (S : Bytes → Bytes → Prop) (C : Ctx → Ctx → Prop) : Prop where
  refl : ∀ s, S s s
  append : ∀ {a b c d}, S a b → S c d → S (a ++ c) (b ++ d)
  strip : ∀ {a b}, S a b → S (stripLeft a) (stripLeft b) ∧ (stripLeft a = [] ↔ stripLeft b = [])
  pad : ∀ {c d}, C c d → S (pad c) (pad d)
  deeper : ∀ {c d} (k : Nat), C c d → C (deeper c k) (deeper d k)

/-- What one child is rendered to: the strings are related and empty alike, the flags are
the same. -/
def SamePiece (S : Bytes → Bytes → Prop) (p q : Bytes × Bool) : Prop :=
  S p.1 q.1 ∧ (p.1 = [] ↔ q.1 = []) ∧ p.2 = q.2

/-- What a block is rendered to. -/
def SameBlock (S : Bytes → Bytes → Prop) (s t : Bytes) : Prop := S s t ∧ s ≠ [] ∧ t ≠ []

variable {S : Bytes → Bytes → Prop} {C : Ctx → Ctx → Prop}

theorem SameBlock.piece {s t : Bytes} (h : SameBlock S s t) (blk : Bool) :
    SamePiece S (s, blk) (t, blk) :=
  ⟨h.1, iff_of_false h.2.1 h.2.2, rfl⟩

namespace Layout

variable (hS : Layout S C)
include hS

theorem samePiece (s : Bytes) (blk : Bool) : SamePiece S (s, blk) (s, blk) :=
  ⟨hS.refl s, Iff.rfl, rfl⟩

theorem behind (s : Bytes) {a b : Bytes} (h : S a b) : S (s ++ a) (s ++ b) :=
  hS.append (hS.refl s) h

theorem before (s : Bytes) {a b : Bytes} (h : S a b) : S (a ++ s) (b ++ s) :=
  hS.append h (hS.refl s)

theorem braced {a b : Bytes} (h : S a b) : S (braced a) (braced b) :=
  hS.behind [123] (hS.before [125] h)

theorem bracketed {a b : Bytes} (h : S a b) : S (bracketed a) (bracketed b) :=
  hS.behind [91] (hS.before [93] h)

theorem lines (ls : List Bytes) : List.Forall₂ S ls ls := List.forall₂_same.mpr fun l _ => hS.refl l

theorem flatten {ss ts : List Bytes} (h : List.Forall₂ S ss ts) : S ss.flatten ts.flatten := by
  induction h with
  | nil => exact hS.refl []
  | cons hab _ ih => exact hS.append hab ih

theorem tableConcat (sep : Bytes) {ss ts : List Bytes} (h : List.Forall₂ S ss ts) :
    S (tableConcat sep ss) (tableConcat sep ts) := by
  cases h with
  | nil => exact hS.refl []
  | cons hab hrest =>
      rw [tableConcat_cons, tableConcat_cons]
      refine hS.append hab ?_
      induction hrest with
      | nil => exact hS.refl []
      | cons hcd _ ih => exact hS.append (hS.behind sep hcd) ih

end Layout

/-! ## Two runs of a renderer -/

/-- The state of the loop in `render_children`. -/
structure SameGlue (S : Bytes → Bytes → Prop) (g g' : Glue) : Prop where
  out : List.Forall₂ (fun s t => S s t ∧ (s = [] ↔ t = [])) g.out g'.out
  prevBlock : g.prevBlock = g'.prevBlock
  anyBlock : g.anyBlock = g'.anyBlock

theorem flatten_eq_nil_iff_of_forall₂ {ss ts : List Bytes}
    (h : List.Forall₂ (fun s t => s = [] ↔ t = []) ss ts) : ss.flatten = [] ↔ ts.flatten = [] := by
  induction h with
  | nil => exact Iff.rfl
  | cons hst _ ih => simp [hst, ih]

theorem SameGlue.push (hS : Layout S C) {g g' : Glue} (h : SameGlue S g g') (bsep : Bytes)
    {s t : Bytes} {blk : Bool} (hst : S s t) (hnil : s = [] ↔ t = []) :
    SameGlue S (g.push bsep s blk) (g'.push bsep t blk) := by
  have hkept : (blk = true ∨ t ≠ []) ↔ (blk = true ∨ s ≠ []) := or_congr_right (not_congr hnil.symm)
  unfold Glue.push
  rw [if_congr hkept rfl rfl]
  split
  · refine ⟨?_, rfl, by rw [h.anyBlock]⟩
    simp only [← h.out.length_eq, ← h.prevBlock]
    refine List.rel_append ?_ (.cons ⟨hst, hnil⟩ .nil)
    split
    · exact List.rel_append h.out (.cons ⟨hS.refl bsep, Iff.rfl⟩ .nil)
    · exact h.out
  · exact h

section

variable (hS : Layout S C) {one one' : Val → Ctx → Except LatexError (Bytes × Bool)} {n : Nat}
  (hone : ∀ c ctx ctx', Val.depth c ≤ n → C ctx ctx' →
    Coupled .depth (SamePiece S) (one c ctx) (one' c ctx'))
include hS hone

theorem coupled_renderItems {ctx ctx' : Ctx} (hctx : C ctx ctx') (bsep : Bytes) :
    ∀ (cs : List Val) (g g' : Glue), (∀ c ∈ cs, c.depth ≤ n) → SameGlue S g g' →
      Coupled .depth (SameGlue S) (renderItems one ctx bsep cs g) (renderItems one' ctx' bsep cs g')
  | [], _, _, _, hg => .ok hg
  | c :: cs, g, g', h, hg => by
      rw [List.forall_mem_cons] at h
      refine (hone c ctx ctx' h.1 hctx).bind ?_
      rintro ⟨s, blk⟩ ⟨t, _⟩ ⟨hst, hnil, rfl⟩
      exact coupled_renderItems hctx bsep cs _ _ h.2 (hg.push hS bsep hst hnil)

theorem coupled_renderChildren {ctx ctx' : Ctx} (hctx : C ctx ctx') {cs : List Val}
    (h : ∀ c ∈ cs, c.depth ≤ n) (who bsep : Bytes) :
    Coupled .depth (SamePiece S) (renderChildren one cs ctx who bsep)
      (renderChildren one' cs ctx' who bsep) := by
  have hflat := Coupled.self (flattenFrom_ne_depth who cs 1)
    (returns_flattenFrom (hereditary_depth n) who cs 1 h)
  refine hflat.bind ?_
  rintro items _ ⟨rfl, hdepth⟩
  refine (coupled_renderItems hS hone hctx bsep items _ _ hdepth ⟨.nil, rfl, rfl⟩).bind ?_
  rintro g g' ⟨hout, -, hany⟩
  refine .ok ⟨hS.tableConcat [] (hout.imp fun _ _ => And.left), ?_, hany⟩
  simpa only [tableConcat_nil] using flatten_eq_nil_iff_of_forall₂ (hout.imp fun _ _ => And.right)

theorem coupled_inlineVal {ctx ctx' : Ctx} (hctx : C ctx ctx') {c : Val} (h : c.depth ≤ n)
    (who : Bytes) :
    Coupled .depth S (inlineVal one c ctx who) (inlineVal one' c ctx' who) :=
  (coupled_renderChildren hS hone hctx (List.forall_mem_singleton.mpr h) who parSep).bind
    fun _ _ hpq => .ok hpq.1

theorem coupled_renderArgs {ctx ctx' : Ctx} (hctx : C ctx ctx') (who : Bytes) :
    ∀ args : List Val, (∀ a ∈ args, a.depth ≤ n) →
      Coupled .depth S (renderArgs one ctx who args) (renderArgs one' ctx' who args)
  | [], _ => .ok (hS.refl [])
  | a :: args, h => by
      rw [List.forall_mem_cons] at h
      rw [renderArgs, renderArgs]
      split
      · exact .ok (hS.refl [])
      · exact (coupled_inlineVal hS hone hctx h.1 who).bind fun s t hst =>
          (coupled_renderArgs hctx who args h.2).bind fun _ _ hrest =>
            .ok (hS.append (hS.braced hst) hrest)

theorem coupled_envArg {ctx ctx' : Ctx} (hctx : C ctx ctx') {a : Val} (h : a.depth ≤ n)
    (who : Bytes) : Coupled .depth S (envArg one ctx who a) (envArg one' ctx' who a) := by
  unfold envArg
  split
  · exact .ok (hS.refl _)
  · exact coupled_inlineVal hS hone hctx h who

theorem coupled_envArgs {ctx ctx' : Ctx} (hctx : C ctx ctx') (who : Bytes) :
    ∀ args : List Val, (∀ a ∈ args, a.depth ≤ n) →
      Coupled .depth S (envArgs one ctx who args) (envArgs one' ctx' who args)
  | [], _ => .ok (hS.refl [])
  | a :: args, h => by
      rw [List.forall_mem_cons] at h
      rw [envArgs, envArgs]
      split
      · exact .ok (hS.refl [])
      · exact (coupled_envArg hS hone hctx h.1 who).bind fun s t hst =>
          (coupled_envArgs hctx who args h.2).bind fun _ _ hrest =>
            .ok (hS.append (hS.braced hst) hrest)

theorem coupled_termArg {ctx ctx' : Ctx} (hctx : C ctx ctx') {term : Val}
    (h : term.truthy = true → term.depth ≤ n) (who : Bytes) :
    Coupled .depth S (termArg one ctx who term) (termArg one' ctx' who term) := by
  unfold termArg
  split
  · next ht =>
      exact (coupled_inlineVal hS hone hctx (h ht) who).bind fun _ _ hst => .ok (hS.bracketed hst)
  · exact .ok (hS.refl [])

/-! ### Tables and floats -/

theorem coupled_rowCells {ctx ctx' : Ctx} (hctx : C ctx ctx') (what : Bytes) :
    ∀ (cells : List Val) (i : Nat), (∀ c ∈ cells, c.depth ≤ n) →
      Coupled .depth (List.Forall₂ S) (rowCells one ctx what i cells)
        (rowCells one' ctx' what i cells)
  | [], _, _ => .ok .nil
  | c :: cells, i, h => by
      rw [List.forall_mem_cons] at h
      rw [rowCells, rowCells]
      split
      · split
        · exact .ok .nil
        · exact .error nofun
      · exact (coupled_inlineVal hS hone hctx h.1 _).bind fun s t hst =>
          (coupled_rowCells hctx what cells (i + 1) h.2).bind fun _ _ hrest => .ok (.cons hst hrest)

theorem coupled_rowStr {ctx ctx' : Ctx} (hctx : C ctx ctx') {row : Val} (h : row.depth ≤ n)
    (what : Bytes) : Coupled .depth S (rowStr one ctx what row) (rowStr one' ctx' what row) := by
  unfold rowStr
  split
  · next t cells =>
      have hcells := ((hereditary_depth n).list t cells h).2
      exact (coupled_rowCells hS hone hctx what cells 1 hcells).bind fun _ _ hout =>
        .ok (hS.before _ (hS.tableConcat _ hout))
  · exact .error nofun

theorem coupled_rowLines {ctx ctx' : Ctx} (hctx : C ctx ctx') {p1 p1' : Bytes} (hp : S p1 p1') :
    ∀ (rows : List Val) (i : Nat), (∀ r ∈ rows, r.depth ≤ n) →
      Coupled .depth (List.Forall₂ S) (rowLines one ctx p1 i rows) (rowLines one' ctx' p1' i rows)
  | [], _, _ => .ok .nil
  | r :: rows, i, h => by
      rw [List.forall_mem_cons] at h
      have ih := coupled_rowLines hctx hp rows (i + 1) h.2
      unfold rowLines
      split
      · split
        · exact .ok .nil
        · exact .error nofun
      · exact ih.bind fun _ _ hrest => .ok (.cons (hS.before _ hp) hrest)
      · exact (coupled_rowStr hS hone hctx h.1 _).bind fun _ _ hs =>
          ih.bind fun _ _ hrest => .ok (.cons (hS.append hp hs) hrest)

theorem coupled_headerLines {ctx ctx' : Ctx} (hctx : C ctx ctx') {p1 p1' : Bytes} (hp : S p1 p1')
    {header : Val} (h : header.depth ≤ n) (mid : Bytes) :
    Coupled .depth (List.Forall₂ S) (headerLines one ctx p1 mid header)
      (headerLines one' ctx' p1' mid header) := by
  unfold headerLines
  split
  · exact (coupled_rowStr hS hone hctx h _).bind fun _ _ hs =>
      .ok (.cons (hS.append hp hs) (.cons (hS.before mid hp) .nil))
  · exact .ok .nil

theorem coupled_tabularBody {ctx ctx' : Ctx} (hctx : C ctx ctx') {t : TabCfg Val}
    (hheader : t.header.depth ≤ n) (hrows : ∀ r ∈ t.rows, r.depth ≤ n) :
    Coupled .depth (SameBlock S) (tabularBody one t ctx) (tabularBody one' t ctx') := by
  have hp := hS.pad hctx
  have hp1 := hS.pad (hS.deeper 1 hctx)
  unfold tabularBody
  refine (Coupled.self (ncols_ne_depth t) fun k _ => trivial).bind ?_
  rintro k _ ⟨rfl, -⟩
  refine (coupled_headerLines hS hone hctx hp1 hheader _).bind fun head head' hhead => ?_
  refine (coupled_rowLines hS hone hctx hp1 t.rows 1 hrows).bind fun rows rows' hrows => .ok ?_
  refine ⟨hS.tableConcat _ (List.rel_append (List.rel_append (List.rel_append ?_ hhead) hrows) ?_),
    by simp [tableConcat_cons, beginTag, ascii], by simp [tableConcat_cons, beginTag, ascii]⟩
  · exact .cons (hS.before _ (hS.before _ hp)) (.cons (hS.before _ hp1) .nil)
  · exact .cons (hS.before _ hp1) (.cons (hS.before _ hp) .nil)

theorem coupled_tabularLines {ctx ctx' : Ctx} (hctx : C ctx ctx') {t : TabCfg Val}
    (hheader : t.header.depth ≤ n) (hrows : ∀ r ∈ t.rows, r.depth ≤ n) :
    Coupled .depth (SameBlock S) (tabularLines one t ctx) (tabularLines one' t ctx') := by
  have hp := hS.pad hctx
  unfold tabularLines
  split
  · refine (coupled_tabularBody hS hone (hS.deeper 1 hctx) hheader hrows).bind fun inner _ hi => .ok ?_
    refine ⟨hS.append (hS.before _ (hS.before _ (hS.before _ hp))) (hS.braced ?_), by simp [ascii],
      by simp [ascii]⟩
    exact hS.append (hS.before _ (hS.behind _ hi.1)) hp
  · exact coupled_tabularBody hS hone hctx hheader hrows

theorem coupled_captionLine {ctx ctx' : Ctx} (hctx : C ctx ctx') {p1 p1' : Bytes} (hp : S p1 p1')
    {caption : Val} (h : caption.depth ≤ n) (env : Bytes) :
    Coupled .depth (List.Forall₂ S) (captionLine one ctx env p1 caption)
      (captionLine one' ctx' env p1' caption) := by
  unfold captionLine
  split
  · exact (coupled_inlineVal hS hone hctx h env).bind fun _ _ hs =>
      .ok (.cons (hS.append (hS.before _ hp) (hS.braced hs)) .nil)
  · exact .ok .nil

omit hone in
theorem sameLines_labelLine {p1 p1' : Bytes} (hp : S p1 p1') (label : Option Bytes) :
    List.Forall₂ S (labelLine p1 label) (labelLine p1' label) := by
  cases label with
  | none => exact .nil
  | some l => exact .cons (hS.before _ (hS.before _ hp)) .nil

theorem coupled_floatLines {ctx ctx' : Ctx} (hctx : C ctx ctx') {fl : FloatCfg Val}
    (h : fl.caption.depth ≤ n) (env : Bytes) {body body' : List Bytes}
    (hbody : List.Forall₂ S body body') (defaultPos defaultCap : Bytes) :
    Coupled .depth (SameBlock S) (floatLines one env fl ctx body defaultPos defaultCap)
      (floatLines one' env fl ctx' body' defaultPos defaultCap) := by
  have hp := hS.pad hctx
  have hp1 := hS.pad (hS.deeper 1 hctx)
  unfold floatLines
  refine (coupled_captionLine hS hone hctx hp1 h env).bind fun caption caption' hcaption => .ok ?_
  have hcap := List.rel_append hcaption (sameLines_labelLine hS hp1 fl.label)
  have hif : ∀ (b : Prop) [Decidable b] {ls ls' : List Bytes}, List.Forall₂ S ls ls' →
      List.Forall₂ S (if b then ls else []) (if b then ls' else []) := by
    intro b _ ls ls' hls
    split
    · exact hls
    · exact .nil
  have hnot : ∀ (b : Prop) [Decidable b] {ls ls' : List Bytes}, List.Forall₂ S ls ls' →
      List.Forall₂ S (if b then [] else ls) (if b then [] else ls') := by
    intro b _ ls ls' hls
    split
    · exact .nil
    · exact hls
  have hcenter := hif (fl.center = true) (.cons (hS.before (ascii "\\centering") hp1) .nil)
  refine ⟨hS.tableConcat _ ?_, by simp [tableConcat_cons, beginTag, ascii],
    by simp [tableConcat_cons, beginTag, ascii]⟩
  refine List.rel_append (List.rel_append (List.rel_append (List.rel_append
    (List.rel_append ?_ hcenter) (hif _ hcap)) hbody) (hnot _ hcap)) ?_
  · exact .cons (hS.before _ (hS.before _ hp)) .nil
  · exact .cons (hS.before _ hp) .nil

/-! ### The renderers -/

namespace R

theorem coupled_par {ctx ctx' : Ctx} (hctx : C ctx ctx') {cs : List Val}
    (h : ∀ c ∈ cs, c.depth ≤ n) :
    Coupled .depth (SamePiece S) (par one cs ctx) (par one' cs ctx') :=
  (coupled_renderChildren hS hone hctx h _ parSep).bind fun _ _ hpq => .ok ⟨hpq.1, hpq.2.1, rfl⟩

theorem coupled_cmd {ctx ctx' : Ctx} (hctx : C ctx ctx') {args : List Val}
    (h : ∀ a ∈ args, a.depth ≤ n) (name : Bytes) (opts : Opts) :
    Coupled .depth (SamePiece S) (cmd one name opts args ctx) (cmd one' name opts args ctx') :=
  (coupled_renderArgs hS hone hctx name args h).bind fun _ _ hs =>
    .ok (SameBlock.piece ⟨hS.behind _ hs, by simp [ascii], by simp [ascii]⟩ false)

theorem coupled_env {ctx ctx' : Ctx} (hctx : C ctx ctx') {args cs : List Val}
    (hargs : ∀ a ∈ args, a.depth ≤ n) (hcs : ∀ c ∈ cs, c.depth ≤ n) (name : Bytes) (opts : Opts) :
    Coupled .depth (SamePiece S) (env one name opts args cs ctx) (env one' name opts args cs ctx') := by
  unfold env
  refine (Coupled.self (flattenFrom_ne_depth name cs 1) fun flat _ => trivial).bind ?_
  rintro flat _ ⟨rfl, -⟩
  have hp : S (if flat.any isItem then pad ctx else []) (if flat.any isItem then pad ctx' else []) := by
    split
    · exact hS.pad hctx
    · exact hS.refl []
  have hbctx : C (if flat.any isItem then deeper ctx 1 else ctx)
      (if flat.any isItem then deeper ctx' 1 else ctx') := by
    split
    · exact hS.deeper 1 hctx
    · exact hctx
  refine (coupled_envArgs hS hone hctx name args hargs).bind fun a a' ha => ?_
  refine (coupled_renderChildren hS hone hbctx hcs name _).bind ?_
  rintro ⟨body, _⟩ ⟨body', _⟩ ⟨hbody, hnil, -⟩
  have hopen := hS.append (hS.before (fmtOpts opts) (hS.before (beginTag name) hp)) ha
  refine .ok (SameBlock.piece ⟨?_, by simp [endTag, ascii], by simp [endTag, ascii]⟩ true)
  refine hS.before _ (hS.append (hS.before _ ?_) hp)
  rw [if_congr hnil rfl rfl]
  split
  · exact hopen
  · exact hS.append (hS.before _ hopen) hbody

omit hone in
/-- A line `\item`. -/
theorem same_itemLine {p p' term term' body body' : Bytes} (hp : S p p') (hterm : S term term')
    (hbody : S body body') :
    S (itemLine p term (stripLeft body)) (itemLine p' term' (stripLeft body')) := by
  obtain ⟨hstrip, hnil⟩ := hS.strip hbody
  refine hS.append (hS.append (hS.before _ hp) hterm) ?_
  unfold spaced
  rw [if_congr hnil rfl rfl]
  split
  · exact hS.refl []
  · exact hS.behind _ hstrip

theorem coupled_item {ctx ctx' : Ctx} (hctx : C ctx ctx') {term : Val} {cs : List Val}
    (hterm : term.depth ≤ n) (hcs : ∀ c ∈ cs, c.depth ≤ n) :
    Coupled .depth (SamePiece S) (item one term cs ctx) (item one' term cs ctx') := by
  unfold item
  refine (coupled_termArg hS hone hctx (fun _ => hterm) _).bind fun t t' ht => ?_
  refine (coupled_renderChildren hS hone (hS.deeper 1 hctx) hcs _ _).bind fun p q hpq => .ok ?_
  exact SameBlock.piece ⟨same_itemLine hS (hS.pad hctx) ht hpq.1, by simp [itemLine, ascii],
    by simp [itemLine, ascii]⟩ true

theorem coupled_sec {ctx ctx' : Ctx} (hctx : C ctx ctx') {title cs : List Val}
    (htitle : ∀ c ∈ title, c.depth ≤ n) (hcs : ∀ c ∈ cs, c.depth ≤ n) (cmd : Bytes) (star : Bool)
    (short label : Option Bytes) :
    Coupled .depth (SamePiece S) (sec one cmd star short label title cs ctx)
      (sec one' cmd star short label title cs ctx') := by
  unfold sec
  refine (coupled_renderChildren hS hone hctx htitle cmd parSep).bind ?_
  rintro ⟨t, _⟩ ⟨t', _⟩ ⟨ht, -, -⟩
  refine (coupled_renderChildren hS hone hctx hcs cmd parSep).bind ?_
  rintro ⟨body, _⟩ ⟨body', _⟩ ⟨hbody, hnil, -⟩
  have hhead := hS.behind (ascii "\\" ++ cmd ++ (if star then ascii "*" else [])
    ++ optArg (short.map escape)) (hS.braced ht)
  have hnil' : body' = [] ↔ body = [] := hnil.symm
  cases label with
  | none =>
      refine .ok (SameBlock.piece ⟨?_, ?_, ?_⟩ true)
      · simp only [hnil']
        split
        · exact hhead
        · exact hS.append (hS.before _ hhead) hbody
      · split <;> simp [ascii]
      · split <;> simp [ascii]
  | some l =>
      have hlabel := hS.before (braced l) (hS.before (ascii "\n\\label") hhead)
      refine .ok (SameBlock.piece ⟨?_, ?_, ?_⟩ true)
      · simp only [hnil']
        split
        · exact hlabel
        · exact hS.append (hS.before _ hlabel) hbody
      · split <;> simp [ascii]
      · split <;> simp [ascii]

theorem coupled_itemLines {ctx ctx' ictx ictx' : Ctx} (hctx : C ctx ctx') (hictx : C ictx ictx')
    {p1 p1' : Bytes} (hp : S p1 p1') (env : Bytes) :
    ∀ items : List Item, (∀ it ∈ items, it.All (·.depth ≤ n)) →
      Coupled .depth (List.Forall₂ S) (itemLines one env p1 ctx ictx items)
        (itemLines one' env p1' ctx' ictx' items)
  | [], _ => .ok .nil
  | it :: items, h => by
      rw [List.forall_mem_cons] at h
      refine (coupled_termArg hS hone hctx h.1.1 env).bind fun t t' ht => ?_
      refine (coupled_renderChildren hS hone hictx h.1.2 env _).bind fun p q hpq => ?_
      exact (coupled_itemLines hctx hictx hp env items h.2).bind fun _ _ hrest =>
        .ok (.cons (same_itemLine hS hp ht hpq.1) hrest)

theorem coupled_list {ctx ctx' : Ctx} (hctx : C ctx ctx') {items : List Val}
    (h : ∀ c ∈ items, c.depth ≤ n) (env : Bytes) (opts : Opts) :
    Coupled .depth (SamePiece S) (list one env opts items ctx) (list one' env opts items ctx') := by
  have hp := hS.pad hctx
  have hall := Coupled.self (groupItems_ne_depth env 1 items [])
    (returns_groupItems (hereditary_depth n) env 1 items [] h nofun)
  refine hall.bind ?_
  rintro its _ ⟨rfl, hits⟩
  refine (coupled_itemLines hS hone hctx (hS.deeper 2 hctx) (hS.pad (hS.deeper 1 hctx)) env its
    hits).bind fun ls ls' hls => .ok ?_
  have hlines := List.rel_append (List.rel_append
    (List.Forall₂.cons (hS.before (fmtOpts opts) (hS.before (beginTag env) hp)) .nil) hls)
    (List.Forall₂.cons (hS.before (endTag env) hp) .nil)
  refine SameBlock.piece ⟨hS.tableConcat _ hlines, ?_, ?_⟩ true
  · simp [tableConcat_cons, beginTag, ascii]
  · simp [tableConcat_cons, beginTag, ascii]

omit hone in
theorem same_mathenv {ctx ctx' : Ctx} (hctx : C ctx ctx') (env : Bytes) (star : Bool)
    (label : Option Bytes) (lines : List Bytes) :
    SamePiece S (mathenv env star label lines ctx) (mathenv env star label lines ctx') := by
  have hp := hS.pad hctx
  have hline : ∀ l : Bytes, S (pad ctx ++ ascii "  " ++ l) (pad ctx' ++ ascii "  " ++ l) :=
    fun l => hS.before l (hS.before _ hp)
  have hmap : ∀ ls : List Bytes, List.Forall₂ S (ls.map fun l => pad ctx ++ ascii "  " ++ l)
      (ls.map fun l => pad ctx' ++ ascii "  " ++ l) := fun ls => by
    rw [List.forall₂_map_left_iff, List.forall₂_map_right_iff]
    exact List.forall₂_same.mpr fun l _ => hline l
  have hlabel : ∀ l : Bytes, S (pad ctx ++ ascii "  \\label" ++ braced l)
      (pad ctx' ++ ascii "  \\label" ++ braced l) := fun l => hS.before _ (hS.before _ hp)
  have hlines : List.Forall₂ S (mathLines (pad ctx) env label lines)
      (mathLines (pad ctx') env label lines) := by
    cases label with
    | none => exact hmap lines
    | some l =>
        cases lines with
        | nil => exact .cons (hlabel l) .nil
        | cons first rest =>
            rw [mathLines, mathLines]
            simp only [List.map_cons]
            split
            · exact .cons (hlabel l) (.cons (hline first) (hmap rest))
            · exact .cons (hS.before _ (hS.before _ (hline first))) (hmap rest)
  refine SameBlock.piece ⟨?_, by simp [endTag, ascii], by simp [endTag, ascii]⟩ true
  refine hS.before _ (hS.append (hS.before _ (hS.append ?_ (hS.tableConcat _ hlines))) hp)
  exact hS.before _ (hS.before _ hp)

theorem coupled_tabular {ctx ctx' : Ctx} (hctx : C ctx ctx') {t : TabCfg Val}
    (hheader : t.header.depth ≤ n) (hrows : ∀ r ∈ t.rows, r.depth ≤ n) :
    Coupled .depth (SamePiece S) (tabular one t ctx) (tabular one' t ctx') :=
  (coupled_tabularLines hS hone hctx hheader hrows).bind fun _ _ hs => .ok (hs.piece true)

theorem coupled_table {ctx ctx' : Ctx} (hctx : C ctx ctx') {t : TabCfg Val} {fl : FloatCfg Val}
    (hheader : t.header.depth ≤ n) (hrows : ∀ r ∈ t.rows, r.depth ≤ n)
    (hcaption : fl.caption.depth ≤ n) :
    Coupled .depth (SamePiece S) (table one t fl ctx) (table one' t fl ctx') := by
  unfold table
  refine (coupled_tabularLines hS hone (hS.deeper 1 hctx) hheader hrows).bind fun body body' hb => ?_
  exact (coupled_floatLines hS hone hctx hcaption _ (.cons hb.1 .nil) _ _).bind fun _ _ hs =>
    .ok (hs.piece true)

theorem coupled_figure {ctx ctx' : Ctx} (hctx : C ctx ctx') (fig : FigCfg) {fl : FloatCfg Val}
    (hcaption : fl.caption.depth ≤ n) :
    Coupled .depth (SamePiece S) (figure one fig fl ctx) (figure one' fig fl ctx') := by
  have hp1 := hS.pad (hS.deeper 1 hctx)
  unfold figure
  refine (coupled_floatLines hS hone hctx hcaption _ (.cons ?_ .nil) _ _).bind fun _ _ hs =>
    .ok (hs.piece true)
  exact hS.before _ (hS.before _ (hS.before _ hp1))

theorem coupled_preambleLine {ctx ctx' : Ctx} (hctx : C ctx ctx') {c : Val} (h : c.depth ≤ n) :
    Coupled .depth S (preambleLine one ctx c) (preambleLine one' ctx' c) := by
  unfold preambleLine
  split
  · exact .ok (hS.refl _)
  · exact (hone c ctx ctx' h hctx).bind fun _ _ hpq => .ok hpq.1

theorem coupled_preambleLines {ctx ctx' : Ctx} (hctx : C ctx ctx') :
    ∀ items : List Val, (∀ c ∈ items, c.depth ≤ n) →
      Coupled .depth (List.Forall₂ S) (preambleLines one ctx items) (preambleLines one' ctx' items)
  | [], _ => .ok .nil
  | c :: items, h => by
      rw [List.forall_mem_cons] at h
      rw [preambleLines, preambleLines]
      split
      · exact .ok .nil
      · exact (coupled_preambleLine hS hone hctx h.1).bind fun s t hst =>
          (coupled_preambleLines hctx items h.2).bind fun _ _ hrest => .ok (.cons hst hrest)

theorem coupled_headLine {ctx ctx' : Ctx} (hctx : C ctx ctx') {x : Val} (h : x.depth ≤ n)
    (command who : Bytes) :
    Coupled .depth (List.Forall₂ S) (headLine one ctx command who x)
      (headLine one' ctx' command who x) := by
  unfold headLine
  split
  · exact (coupled_inlineVal hS hone hctx h who).bind fun _ _ hs =>
      .ok (.cons (hS.behind _ (hS.braced hs)) .nil)
  · exact .ok .nil

theorem coupled_dateLine {ctx ctx' : Ctx} (hctx : C ctx ctx') {x : Val} (h : x.depth ≤ n) :
    Coupled .depth (List.Forall₂ S) (dateLine one ctx x) (dateLine one' ctx' x) := by
  unfold dateLine
  split
  · exact .ok .nil
  · exact .ok (hS.lines _)
  · exact (coupled_inlineVal hS hone hctx h _).bind fun _ _ hs =>
      .ok (.cons (hS.behind _ (hS.braced hs)) .nil)

omit hone in
/-- The head of a document and the parts of its body. -/
theorem same_parts {s t : Bytes} (hst : S s t) {parts parts' : List Bytes}
    (h : List.Forall₂ S parts parts') :
    S (if parts.length > 0 then s ++ ascii "\n\n" ++ tableConcat (ascii "\n\n") parts else s)
      (if parts'.length > 0 then t ++ ascii "\n\n" ++ tableConcat (ascii "\n\n") parts' else t) := by
  rw [h.length_eq]
  split
  · exact hS.append (hS.before _ hst) (hS.tableConcat _ h)
  · exact hst

theorem coupled_document {ctx ctx' : Ctx} (hctx : C ctx ctx') {d : DocCfg Val} {cs : List Val}
    (hpre : ∀ c ∈ d.preamble, c.depth ≤ n) (htitle : d.title.depth ≤ n)
    (hauthor : d.author.depth ≤ n) (hdate : d.date.depth ≤ n) (hcs : ∀ c ∈ cs, c.depth ≤ n) :
    Coupled .depth (SamePiece S) (document one d cs ctx) (document one' d cs ctx') := by
  unfold document
  refine (coupled_preambleLines hS hone hctx d.preamble hpre).bind fun _ _ hpre' => ?_
  refine (coupled_headLine hS hone hctx htitle _ _).bind fun _ _ htitle' => ?_
  refine (coupled_headLine hS hone hctx hauthor _ _).bind fun _ _ hauthor' => ?_
  refine (coupled_dateLine hS hone hctx hdate).bind fun _ _ hdate' => ?_
  refine (coupled_renderChildren hS hone hctx hcs _ _).bind ?_
  rintro ⟨body, _⟩ ⟨body', _⟩ ⟨hbody, hnil, -⟩
  refine .ok (SameBlock.piece ⟨?_, by simp [endTag, ascii], by simp [endTag, ascii]⟩ true)
  have hhead := fun front => hS.tableConcat (ascii "\n") (List.rel_append (List.rel_append
    (List.rel_append (List.rel_append (hS.lines front) hpre') htitle') hauthor') hdate')
  have hbodies : List.Forall₂ S (if body = [] then [] else [body])
      (if body' = [] then [] else [body']) := by
    rw [if_congr hnil rfl rfl]
    split
    · exact .nil
    · exact .cons hbody .nil
  have hparts := fun front back => List.rel_append (List.rel_append (hS.lines front) hbodies)
    (hS.lines back)
  have hstart := fun front =>
    hS.before (beginTag (ascii "document")) (hS.before (ascii "\n\n") (hhead front))
  exact hS.before _ (hS.before _ (same_parts hS (hstart _) (hparts _ _)))

end R

end

end Tmg.Latex
