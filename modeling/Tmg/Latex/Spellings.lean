/-
# `Tmg.Latex.Spellings` — calls that build the same document

An environment can be written in four ways, and a list in two:

    L.env("center", { opts = o, args = a }, "x")      L.itemize{ { "x" }, opts = o }
    L.env{ "center", opts = o, args = a, "x" }        L.env("itemize", { opts = o },
    L.e.center{ opts = o, args = a, "x" }                   L.item("x"))
    L.env("center", { "t", args = a }, "x")

The first four rearrange the same tables on the way to `split_spec`, and the nodes differ
at most in a plain list that `flatten` opens and in options of which `fmt_opts` writes
nothing (`env_spellings`).  The other two are two renderers, `R.list` and `R.env` over
`R.item`; they indent the bodies alike, but the terms are rendered one level apart: in

    L.itemize{ { term = L.cmd("parbox", nil, "5cm", L.itemize{ "a" }), "x" } }

the list within the term stands two spaces further to the left than in the other spelling.
So with `indent` a term must not be indented itself (`listForm_iff`).
-/
import Tmg.Latex.Build
import Tmg.Latex.Fragment

namespace Tmg.Latex

open Tmg Lib

/-- Two calls build nodes, and these render alike wherever they stand. -/
def SameRender (b b' : Except BuildError Val) : Prop :=
  ∃ x y, b = .ok x ∧ b' = .ok y ∧ ∀ ctx, renderNode x ctx = renderNode y ctx

/-! ## The spellings of an environment -/

/-- A list of children is opened. -/
theorem flatten_list (who : Bytes) (term : Val) (cs : List Val) :
    flatten who [.list term cs] = flatten who cs := by
  rw [flatten, flatten, flattenFrom, flattenOne, flattenFrom]
  cases flattenFrom who 1 cs with
  | error err => rfl
  | ok items => exact congrArg Except.ok (List.append_nil items)

/-- `R.env` reads its options through `fmt_opts` and its children through `flatten`. -/
theorem renderNode_env_congr {name : Bytes} {opts opts' : Opts} {args cs cs' : List Val}
    (hopts : fmtOpts opts = fmtOpts opts') (hcs : ∀ who, flatten who cs = flatten who cs')
    (ctx : Ctx) : renderNode (.env name opts args cs) ctx = renderNode (.env name opts' args cs') ctx := by
  rw [renderNode_eq, renderNode_eq]
  change R.env renderNode name opts args cs ctx = R.env renderNode name opts' args cs' ctx
  simp only [R.env, renderChildren, hopts, hcs]

/-- A table from which `split_spec` copies nothing has nothing for `fmt_opts`. -/
theorem fmtOpts_copied (t : OptTab) : fmtOpts t.copied.opts = fmtOpts (OptSpec.tab t).opts := by
  unfold OptTab.copied
  split
  · next h =>
      rw [Bool.and_eq_true, List.isEmpty_iff] at h
      have harr : ipairs t.arr = [] := by
        cases ht : t.arr with
        | nil => rfl
        | cons v vs =>
            rw [ht, List.all_cons, Bool.and_eq_true, Option.isNone_iff_eq_none] at h
            rw [h.1.1]
            rfl
      rw [OptSpec.opts, OptSpec.opts, harr, h.2]
      rfl
  · rfl

theorem env_name_eq {name : Bytes} {t : SpecTab} {cs : List Val} (h : cs.any Val.isNil = false) :
    L.env (.name name) (.tab t) cs
      = .ok (.env name (if t.opts = .nil then t.rest.copied else t.opts).opts t.args.args cs) := by
  rw [L.env, pack_of_full _ h]
  rfl

theorem trim_of_full : ∀ {cs : List Val}, cs.any Val.isNil = false → Val.trim cs = cs
  | [], _ => rfl
  | c :: cs, h => by
      rw [List.any_cons, Bool.or_eq_false_iff] at h
      rw [Val.trim, trim_of_full h.2, if_neg]
      rw [Val.allNil, List.all_cons, h.1]
      exact Bool.false_ne_true

/-- **The spellings of an environment agree.** -/
theorem env_spellings (name : Bytes) (o : OptSpec) (a : ArgSpec) {cs : List Val}
    (h : ∀ c ∈ cs, c.isNil = false) :
    SameRender (L.env (.name name) (.fields o a) cs)
        (L.env (.table ⟨.nil, o, a, .str name :: cs⟩) .nil []) ∧
      SameRender (L.env (.name name) (.fields o a) cs) (L.e name [.table ⟨.nil, o, a, cs⟩]) ∧
      ∀ t (ht : OptTab.Unreserved t), o = .tab t →
        SameRender (L.env (.name name) (.fields o a) cs)
          (L.env (.name name) (.tab ⟨.nil, a, t, ht⟩) cs) := by
  have hcs : cs.any Val.isNil = false := by simpa using h
  refine ⟨⟨_, _, env_name_eq hcs, ?_, fun _ => rfl⟩, ?_, ?_⟩
  · rw [L.env]
    simp only [trim_of_full hcs, checkHoles_of_full _ cs 1 hcs]
    rfl
  · by_cases hspec : o ≠ .nil ∨ a.isNil = false
    · refine ⟨_, _, env_name_eq hcs, ?_, fun _ => rfl⟩
      rw [L.e, Arg.table?]
      simp only [trim_of_full hcs, if_pos hspec]
      exact env_name_eq hcs
    · -- without a spec the table is a child, and opened
      refine ⟨_, .env name .none [] [.list .nil cs], env_name_eq hcs, ?_, ?_⟩
      · rw [L.e, Arg.table?]
        simp only [if_neg hspec]
        rfl
      · rw [not_or, not_not, Bool.not_eq_false] at hspec
        obtain ⟨rfl, ha⟩ := hspec
        cases a with
        | nil => exact renderNode_env_congr rfl fun who => (flatten_list who .nil cs).symm
        | tab args => exact absurd ha Bool.false_ne_true
        | val x => exact absurd ha Bool.false_ne_true
  · rintro t ht rfl
    refine ⟨_, _, env_name_eq hcs, env_name_eq hcs, ?_⟩
    exact renderNode_env_congr (fmtOpts_copied t).symm fun _ => rfl

/-- `L.env("tabularx", { "t", args = "2cm" }, "x")` and its spelling with `opts`. -/
theorem env_spellings_tabularx :
    SameRender
      (L.env (.name (ascii "tabularx"))
        (.fields (.tab ⟨[some (ascii "t")], []⟩) (.val (.str (ascii "2cm")))) [.str (ascii "x")])
      (L.env (.name (ascii "tabularx"))
        (.tab ⟨.nil, .val (.str (ascii "2cm")), ⟨[some (ascii "t")], []⟩, nofun⟩)
        [.str (ascii "x")]) :=
  (env_spellings (ascii "tabularx") (.tab ⟨[some (ascii "t")], []⟩) (.val (.str (ascii "2cm")))
    (by decide : ∀ c ∈ [Val.str (ascii "x")], c.isNil = false)).2.2 ⟨[some (ascii "t")], []⟩ nofun rfl

/-! ## What is not indented -/

namespace Val

mutual

/-- No block that is indented stands in the value.  Text, numbers, math and raw LaTeX have none,
and neither have commands, fragments and lists of these. -/
def unindented : Val → Bool
  | list _ items => unindentedList items
  | frag cs => unindentedList cs
  | par cs => unindentedList cs
  | cmd _ _ args => unindentedList args
  | env _ _ args cs => unindentedList args && unindentedList cs
  | sec _ _ _ _ title cs => unindentedList title && unindentedList cs
  | item .. => false
  | listenv .. => false
  | mathenv .. => false
  | tabular .. => false
  | table .. => false
  | figure .. => false
  | document .. => false
  | _ => true

def unindentedList : List Val → Bool
  | [] => true
  | c :: cs => unindented c && unindentedList cs

end

mutual

theorem unindented_leaves (c : Val) (h : c.unindented = true) :
    ∀ d ∈ c.leaves, d.unindented = true := by
  cases c with
  | list t items =>
      rw [unindented] at h
      exact unindented_leavesList items h
  | nil => exact nofun
  | _ => exact List.forall_mem_singleton.mpr h

theorem unindented_leavesList :
    ∀ cs : List Val, unindentedList cs = true → ∀ d ∈ leavesList cs, d.unindented = true
  | [], _ => nofun
  | c :: cs, h => by
      rw [unindentedList, Bool.and_eq_true] at h
      exact List.forall_mem_append.mpr ⟨unindented_leaves c h.1, unindented_leavesList cs h.2⟩

end

theorem unindentedList_iff (cs : List Val) :
    unindentedList cs = true ↔ ∀ c ∈ cs, c.unindented = true := by
  induction cs with
  | nil => simp [unindentedList]
  | cons c cs ih => simp [unindentedList, ih]

theorem not_item_of_unindented {cs : List Val} (h : unindentedList cs = true) :
    (leavesList cs).any R.isItem = false := by
  rw [List.any_eq_false]
  intro d hd
  have hun := unindented_leavesList cs h d hd
  cases d with
  | item term cs => exact absurd hun Bool.false_ne_true
  | _ => exact Bool.false_ne_true

end Val

section

variable {one one' : Val → Ctx → Except LatexError (Bytes × Bool)}

theorem mapM_congr {α β ε : Type} {f g : α → Except ε β} :
    ∀ {xs : List α}, (∀ x ∈ xs, f x = g x) → xs.mapM f = xs.mapM g
  | [], _ => rfl
  | x :: xs, h => by
      rw [List.forall_mem_cons] at h
      rw [List.mapM_cons, List.mapM_cons, h.1, mapM_congr h.2]

/-- `render_children` looks at the leaves. -/
theorem renderChildren_congr {cs : List Val} {ctx ctx' : Ctx}
    (h : ∀ c ∈ Val.leavesList cs, one c ctx = one' c ctx') (who bsep : Bytes) :
    renderChildren one cs ctx who bsep = renderChildren one' cs ctx' who bsep := by
  rw [renderChildren_glued, renderChildren_glued]
  cases hfull : Val.fullList cs with
  | false =>
      obtain ⟨i, hi⟩ := flatten_of_hole who _ hfull
      rw [hi]
      rfl
  | true =>
      rw [flatten_of_full who hfull]
      change ((Val.leavesList cs).mapM (one · ctx) >>= _) = ((Val.leavesList cs).mapM (one' · ctx') >>= _)
      rw [mapM_congr h]

theorem renderArgs_congr {ctx ctx' : Ctx} (who : Bytes) :
    ∀ {args : List Val}, (∀ a ∈ args, inlineVal one a ctx who = inlineVal one' a ctx' who) →
      renderArgs one ctx who args = renderArgs one' ctx' who args
  | [], _ => rfl
  | a :: args, h => by
      rw [List.forall_mem_cons] at h
      rw [renderArgs, renderArgs, h.1, renderArgs_congr who h.2]

theorem envArgs_congr {ctx ctx' : Ctx} (who : Bytes) :
    ∀ {args : List Val}, (∀ a ∈ args, inlineVal one a ctx who = inlineVal one' a ctx' who) →
      envArgs one ctx who args = envArgs one' ctx' who args
  | [], _ => rfl
  | a :: args, h => by
      rw [List.forall_mem_cons] at h
      have harg : envArg one ctx who a = envArg one' ctx' who a := by
        unfold envArg
        split
        · rfl
        · exact h.1
      rw [envArgs, envArgs, harg, envArgs_congr who h.2]

end

/-- **What is not indented is rendered alike in any two contexts.** -/
theorem renderNode_unindented :
    ∀ (n : Nat) (c : Val) (ctx ctx' : Ctx), c.depth ≤ n → c.unindented = true →
      renderNode c ctx = renderNode c ctx'
  | 0, c, _, _, h, _ => absurd c.one_le_depth (by omega)
  | n + 1, c, ctx, ctx', h, hc => by
      have hchildren : ∀ cs : List Val, Val.depthList cs ≤ n → Val.unindentedList cs = true →
          ∀ who bsep, renderChildren renderNode cs ctx who bsep
            = renderChildren renderNode cs ctx' who bsep := fun cs hn hcs who bsep =>
        renderChildren_congr (fun d hd => renderNode_unindented n d ctx ctx'
          (Nat.le_trans (Val.depth_leavesList cs d hd) hn)
          (Val.unindented_leavesList cs hcs d hd)) who bsep
      have hargs : ∀ args : List Val, Val.depthList args ≤ n → Val.unindentedList args = true →
          ∀ who, ∀ a ∈ args, inlineVal renderNode a ctx who = inlineVal renderNode a ctx' who := by
        intro args hn hun who a ha
        have hdepth := (Val.depthList_le args).mp hn a ha
        have hone := (Val.unindentedList_iff args).mp hun a ha
        rw [inlineVal, inlineVal, hchildren [a] (by simpa [Val.depthList] using hdepth)
          (by simpa [Val.unindentedList] using hone)]
      rw [renderNode_eq, renderNode_eq]
      cases c with
      | frag cs => exact hchildren cs (Nat.le_of_succ_le_succ h) hc _ _
      | par cs =>
          change R.par renderNode cs ctx = R.par renderNode cs ctx'
          rw [R.par, R.par, hchildren cs (Nat.le_of_succ_le_succ h) hc]
      | cmd name opts args =>
          change R.cmd renderNode name opts args ctx = R.cmd renderNode name opts args ctx'
          rw [R.cmd, R.cmd, renderArgs_congr name (hargs args (Nat.le_of_succ_le_succ h) hc name)]
      | env name opts args cs =>
          rw [Val.depth] at h
          rw [Val.unindented, Bool.and_eq_true] at hc
          change R.env renderNode name opts args cs ctx = R.env renderNode name opts args cs ctx'
          have henv := envArgs_congr name (hargs args (by omega) hc.1 name)
          cases hfull : Val.fullList cs with
          | false =>
              obtain ⟨i, hi⟩ := flatten_of_hole name _ hfull
              rw [R.env, R.env, hi]
              rfl
          | true =>
              have hnone := Val.not_item_of_unindented hc.2
              rw [R.env, R.env, flatten_of_full name hfull]
              change (envArgs renderNode ctx name args >>= _) = (envArgs renderNode ctx' name args >>= _)
              simp only [hnone, Bool.false_eq_true, if_false, henv,
                hchildren cs (by omega) hc.2 name parSep]
      | sec cmd star short label title cs =>
          rw [Val.depth] at h
          rw [Val.unindented, Bool.and_eq_true] at hc
          change R.sec renderNode cmd star short label title cs ctx
            = R.sec renderNode cmd star short label title cs ctx'
          simp only [R.sec, hchildren title (by omega) hc.1, hchildren cs (by omega) hc.2]
      | _ => first | rfl | exact absurd hc Bool.false_ne_true

/-! ## The two spellings of a list -/

/-- What may stand among the parts of an item: no nil, and no table that `L.item` would
take for an item of its own. -/
def isPart : Val → Bool
  | .nil => false
  | .list term _ => term.isNil
  | _ => true

/-- An item: a term, nil if there is none, and parts. -/
structure Entry where
  term : Val
  parts : List Val
  parts_ok : ∀ c ∈ parts, isPart c = true

/-- The entry that `R.list` makes of it. -/
def Entry.item (e : Entry) : Item := ⟨e.term, e.parts⟩

/-- `L.item` with that term and these parts. -/
def Item.node (it : Item) : Val := .item it.term it.parts

/-- `{ term = term, parts... }` -/
def Entry.table (e : Entry) : Val := .list e.term e.parts

/-- `L.item(parts...)`, or `L.item{ term = term, parts... }` -/
def Entry.call (e : Entry) : Except BuildError Val :=
  if e.term.isNil then L.item e.parts else L.item [e.table]

/-- `L.itemize{ tables..., opts = o }` and its like. -/
def listForm (name : Bytes) (o : OptSpec) (es : List Entry) : Except BuildError Val :=
  L.listkind name ⟨.nil, o, .nil, es.map Entry.table⟩

/-- `L.env("itemize", { opts = o }, L.item(...)...)` and its like. -/
def envForm (name : Bytes) (o : OptSpec) (es : List Entry) : Except BuildError Val := do
  let items ← es.mapM Entry.call
  L.env (.name name) (.fields o .nil) items

theorem Entry.parts_full (e : Entry) : e.parts.any Val.isNil = false := by
  rw [List.any_eq_false]
  intro c hc
  have hpart := e.parts_ok c hc
  cases c with
  | nil => exact absurd hpart Bool.false_ne_true
  | _ => exact Bool.false_ne_true

theorem Entry.call_eq (e : Entry) : e.call = .ok e.item.node := by
  have hpack : (pack (ascii "item") e.parts >>= fun t => .ok (.item .nil t))
      = (.ok (.item .nil e.parts) : Except BuildError Val) := by
    rw [pack_of_full _ e.parts_full]
    rfl
  unfold Entry.call
  split
  · next hterm =>
      have hnil : e.term = .nil := by
        cases ht : e.term with
        | nil => rfl
        | _ => rw [ht] at hterm; exact absurd hterm Bool.false_ne_true
      rw [Entry.item, hnil]
      unfold L.item
      split
      · next term items hparts =>
          have hpart : term.isNil = true := e.parts_ok (.list term items) (hparts ▸ List.mem_singleton_self _)
          rw [if_pos hpart]
          exact hpack
      · exact hpack
  · next hterm =>
      rw [Entry.table, L.item, if_neg hterm]
      simp only [trim_of_full e.parts_full, checkHoles_of_full _ e.parts 1 e.parts_full]
      rfl

theorem listForm_eq (name : Bytes) (o : OptSpec) (es : List Entry) :
    listForm name o es = .ok (.listenv name o.opts (es.map Entry.table)) := by
  have hfull : (es.map Entry.table).any Val.isNil = false := by
    rw [List.any_map]
    exact List.any_eq_false.mpr fun _ _ => Bool.false_ne_true
  rw [listForm, L.listkind]
  simp only [trim_of_full hfull, checkHoles_of_full _ _ 1 hfull]
  rfl

theorem envForm_eq (name : Bytes) (o : OptSpec) (es : List Entry) :
    ∃ opts, fmtOpts opts = fmtOpts o.opts ∧
      envForm name o es = .ok (.env name opts [] ((es.map Entry.item).map Item.node)) := by
  have hcalls : es.mapM Entry.call = .ok ((es.map Entry.item).map Item.node) := by
    induction es with
    | nil => rfl
    | cons e es ih =>
        rw [List.mapM_cons, e.call_eq, ih]
        rfl
  have hfull : ((es.map Entry.item).map Item.node).any Val.isNil = false := by
    rw [List.any_map, List.any_map]
    exact List.any_eq_false.mpr fun _ _ => Bool.false_ne_true
  refine ⟨_, ?_, by rw [envForm, hcalls]; exact env_name_eq hfull⟩
  split
  · next h =>
      have ho : o = .nil := h
      rw [ho]
      rfl
  · rfl

/-! ### The two renderers -/

section

variable {one : Val → Ctx → Except LatexError (Bytes × Bool)}

/-- Whose children they are only matters for the errors. -/
theorem renderChildren_who {cs : List Val} {ctx : Ctx} {who bsep : Bytes} (who' : Bytes)
    {r : Bytes × Bool} (h : renderChildren one cs ctx who bsep = .ok r) :
    renderChildren one cs ctx who' bsep = .ok r :=
  (renderChildren_eq_ok_iff one).mpr ((renderChildren_eq_ok_iff one).mp h)

theorem termArg_who {term : Val} {ctx : Ctx} {who : Bytes} (who' : Bytes) {t : Bytes}
    (h : termArg one ctx who term = .ok t) : termArg one ctx who' term = .ok t := by
  rw [termArg] at h ⊢
  split at h
  · next ht =>
      obtain ⟨s, hs, hst⟩ := bind_eq_ok_iff.mp h
      have hs' : inlineVal one term ctx who' = .ok s :=
        (inlineVal_eq_ok_iff one).mpr ((inlineVal_eq_ok_iff one).mp hs)
      rw [if_pos ht, hs']
      exact hst
  · next ht => rwa [if_neg ht]

theorem item_eq_ok_iff (it : Item) (ctx : Ctx) (q : Bytes × Bool) :
    R.item one it.term it.parts ctx = .ok q ↔
      ∃ l, ItemLine one (pad ctx) ctx (deeper ctx 1) (ascii "item") it l ∧ q = (l, true) := by
  rw [R.item, bind_eq_ok_iff]
  simp only [bind_eq_ok_iff]
  constructor
  · rintro ⟨t, ht, body, hbody, hq⟩
    exact ⟨_, ⟨t, body, ht, hbody, rfl⟩, (Except.ok.inj hq).symm⟩
  · rintro ⟨l, ⟨t, body, ht, hbody, rfl⟩, rfl⟩
    exact ⟨t, ht, body, hbody, rfl⟩

end

/-- Every item table opens an item of its own. -/
theorem groupItems_tables (env : Bytes) :
    ∀ (es : List Entry) (i : Nat) (items : List Item),
      groupItems env i (es.map Entry.table) items = .ok (items ++ es.map Entry.item)
  | [], i, items => by
      rw [List.map_nil, groupItems, List.map_nil, List.append_nil]
  | e :: es, i, items => by
      rw [List.map_cons, Entry.table, groupItems, groupItems_tables env es, trim_of_full e.parts_full,
        List.append_assoc]
      rfl

/-- Blocks are written one after the other, with `bsep` between them. -/
theorem glued_blocks (bsep : Bytes) (ls : List Bytes) :
    glued bsep (ls.map fun l => (l, true)) = tableConcat bsep ls := by
  have hkept : (ls.map fun l => (l, true)).filter kept = ls.map fun l => (l, true) := by
    rw [List.filter_eq_self]
    intro p hp
    obtain ⟨l, -, rfl⟩ := List.mem_map.mp hp
    rfl
  have hafter : ∀ (ls : List Bytes) (l : Bytes),
      joinAfter (·.1) (unlessGlued bothInline bsep) (l, true) (ls.map fun l => (l, true))
        = ls.flatMap (bsep ++ ·) := by
    intro ls
    induction ls with
    | nil => exact fun _ => rfl
    | cons m ls ih =>
        intro l
        rw [List.map_cons, joinAfter, ih, List.flatMap_cons, List.append_assoc]
        rfl
  rw [glued_eq_joinWith, hkept]
  cases ls with
  | nil => rfl
  | cons l ls => rw [List.map_cons, joinWith, hafter, tableConcat_cons]

/-- The lines of a list environment, put together. -/
def listText (p name : Bytes) (opts : Opts) (ls : List Bytes) : Bytes :=
  tableConcat (ascii "\n") ([p ++ beginTag name ++ fmtOpts opts] ++ ls ++ [p ++ endTag name])

theorem renderNode_listenv (name : Bytes) (opts : Opts) (es : List Entry) (ctx : Ctx)
    (r : Bytes × Bool) :
    renderNode (.listenv name opts (es.map Entry.table)) ctx = .ok r ↔
      ∃ ls, List.Forall₂ (ItemLine renderNode (pad (deeper ctx 1)) ctx (deeper ctx 2) name)
        (es.map Entry.item) ls ∧ r = (listText (pad ctx) name opts ls, true) := by
  rw [renderNode_eq]
  change R.list renderNode name opts _ ctx = _ ↔ _
  rw [R.list, groupItems_tables, List.nil_append]
  change (R.itemLines renderNode name _ ctx _ _ >>= _) = _ ↔ _
  rw [bind_eq_ok_iff]
  simp only [itemLines_eq_ok_iff]
  constructor
  · rintro ⟨ls, hls, hr⟩
    exact ⟨ls, hls, (Except.ok.inj hr).symm⟩
  · rintro ⟨ls, hls, rfl⟩
    exact ⟨ls, hls, rfl⟩

/-- Items are no lists. -/
theorem leaves_items (items : List Item) :
    Val.leavesList (items.map Item.node) = items.map Item.node ∧
      Val.fullList (items.map Item.node) = true := by
  induction items with
  | nil => exact ⟨rfl, rfl⟩
  | cons it items ih =>
      rw [List.map_cons, Val.leavesList, Val.fullList, ih.1, ih.2]
      exact ⟨rfl, rfl⟩

/-- An item node is rendered to its line, a block. -/
theorem renderNode_items (ctx : Ctx) :
    ∀ (items : List Item) (qs : List (Bytes × Bool)),
      List.Forall₂ (fun it q => renderNode (Item.node it) ctx = .ok q) items qs ↔
        ∃ ls, List.Forall₂ (ItemLine renderNode (pad ctx) ctx (deeper ctx 1) (ascii "item")) items ls ∧
          qs = ls.map fun l => (l, true)
  | [], qs => by
      simp only [List.forall₂_nil_left_iff, exists_eq_left, List.map_nil]
  | it :: items, qs => by
      have hitem : ∀ q, renderNode it.node ctx = .ok q ↔
          ∃ l, ItemLine renderNode (pad ctx) ctx (deeper ctx 1) (ascii "item") it l ∧ q = (l, true) := by
        intro q
        rw [renderNode_eq]
        exact item_eq_ok_iff it ctx q
      rw [List.forall₂_cons_left_iff]
      constructor
      · rintro ⟨q, qs, hq, hqs, rfl⟩
        obtain ⟨l, hl, rfl⟩ := (hitem q).mp hq
        obtain ⟨ls, hls, rfl⟩ := (renderNode_items ctx items qs).mp hqs
        exact ⟨l :: ls, .cons hl hls, rfl⟩
      · rintro ⟨ls, hls, rfl⟩
        cases hls with
        | cons hl hls =>
            exact ⟨_, _, (hitem _).mpr ⟨_, hl, rfl⟩, (renderNode_items ctx items _).mpr ⟨_, hls, rfl⟩, rfl⟩

theorem renderChildren_items (items : List Item) (ctx : Ctx) (who : Bytes) (r : Bytes × Bool) :
    renderChildren renderNode (items.map Item.node) ctx who (ascii "\n") = .ok r ↔
      ∃ ls, List.Forall₂ (ItemLine renderNode (pad ctx) ctx (deeper ctx 1) (ascii "item")) items ls ∧
        r = (tableConcat (ascii "\n") ls, !items.isEmpty) := by
  rw [renderChildren_eq_ok_iff, (leaves_items items).1, (leaves_items items).2]
  simp only [List.forall₂_map_left_iff, renderNode_items, true_and]
  constructor
  · rintro ⟨_, ⟨ls, hls, rfl⟩, rfl⟩
    refine ⟨ls, hls, Prod.ext (glued_blocks _ ls) ?_⟩
    cases hls <;> rfl
  · rintro ⟨ls, hls, rfl⟩
    refine ⟨_, ⟨ls, hls, rfl⟩, Prod.ext (glued_blocks _ ls).symm ?_⟩
    cases hls <;> rfl

theorem listText_eq (p name : Bytes) (opts : Opts) {ls : List Bytes} (h : ls ≠ []) :
    listText p name opts ls = p ++ beginTag name ++ fmtOpts opts ++ ascii "\n"
      ++ tableConcat (ascii "\n") ls ++ ascii "\n" ++ p ++ endTag name := by
  obtain ⟨l, ls, rfl⟩ := List.exists_cons_of_ne_nil h
  simp [listText, tableConcat_cons]

/-- A list of items is never empty. -/
theorem tableConcat_entries_ne_nil {one : Val → Ctx → Except LatexError (Bytes × Bool)}
    {p1 : Bytes} {tctx ictx : Ctx} {who : Bytes} {items : List Item} {ls : List Bytes}
    (hne : items ≠ []) (h : List.Forall₂ (ItemLine one p1 tctx ictx who) items ls) :
    ls ≠ [] ∧ tableConcat (ascii "\n") ls ≠ [] := by
  cases h with
  | nil => exact absurd rfl hne
  | cons hl _ =>
      obtain ⟨t, body, -, -, rfl⟩ := hl
      exact ⟨List.cons_ne_nil _ _, by simp [tableConcat_cons, itemLine, ascii]⟩

theorem renderNode_envItems (name : Bytes) (opts : Opts) {items : List Item} (hne : items ≠ [])
    (ctx : Ctx) (r : Bytes × Bool) :
    renderNode (.env name opts [] (items.map Item.node)) ctx = .ok r ↔
      ∃ ls, List.Forall₂ (ItemLine renderNode (pad (deeper ctx 1)) (deeper ctx 1) (deeper ctx 2)
        (ascii "item")) items ls ∧ r = (listText (pad ctx) name opts ls, true) := by
  have hitems : hasItems (items.map Item.node) = true := by
    obtain ⟨it, items, rfl⟩ := List.exists_cons_of_ne_nil hne
    rfl
  have henv : ∀ ls, ls ≠ [] → tableConcat (ascii "\n") ls ≠ [] →
      envText (pad ctx) name opts [] (tableConcat (ascii "\n") ls) = listText (pad ctx) name opts ls := by
    intro ls hls hbody
    rw [listText_eq _ _ _ hls, envText, if_neg hbody, List.append_nil]
  rw [renderNode_eq]
  change R.env renderNode name opts [] _ ctx = _ ↔ _
  rw [env_eq (leaves_items items).2, hitems]
  change (renderChildren renderNode _ (deeper ctx 1) name (ascii "\n") >>= _) = _ ↔ _
  rw [bind_eq_ok_iff]
  simp only [renderChildren_items]
  constructor
  · rintro ⟨_, ⟨ls, hls, rfl⟩, hr⟩
    obtain ⟨hls', hbody⟩ := tableConcat_entries_ne_nil hne hls
    exact ⟨ls, hls, (Except.ok.inj hr).symm.trans (Prod.ext (henv ls hls' hbody) rfl)⟩
  · rintro ⟨ls, hls, rfl⟩
    obtain ⟨hls', hbody⟩ := tableConcat_entries_ne_nil hne hls
    exact ⟨_, ⟨ls, hls, rfl⟩, congrArg Except.ok (Prod.ext (henv ls hls' hbody) rfl)⟩

/-- The term is rendered alike where its leaves are. -/
theorem termArg_congr {term : Val} {ctx ctx' : Ctx}
    (h : ∀ d ∈ term.leaves, renderNode d ctx = renderNode d ctx') (who : Bytes) :
    termArg renderNode ctx who term = termArg renderNode ctx' who term := by
  have hone : inlineVal renderNode term ctx who = inlineVal renderNode term ctx' who := by
    rw [inlineVal, inlineVal, renderChildren_congr fun d hd => ?_]
    rw [leavesList_singleton] at hd
    exact h d hd
  rw [termArg, termArg, hone]

/-- **The two spellings of a list agree**, at every depth: without `indent` for any terms, with
it for terms that are not indented. -/
theorem listForm_iff (name : Bytes) (o : OptSpec) {es : List Entry} (hne : es ≠ []) :
    ∃ x y, listForm name o es = .ok x ∧ envForm name o es = .ok y ∧
      ∀ ctx, (ctx.indent = false ∨ ∀ e ∈ es, e.term.unindented = true) →
        ∀ r, renderNode x ctx = .ok r ↔ renderNode y ctx = .ok r := by
  obtain ⟨opts, hopts, henv⟩ := envForm_eq name o es
  refine ⟨_, _, listForm_eq name o es, henv, fun ctx hterm r => ?_⟩
  have hitems : es.map Entry.item ≠ [] := fun h => hne (List.map_eq_nil_iff.mp h)
  rw [renderNode_env_congr hopts fun _ => rfl, renderNode_listenv, renderNode_envItems name _ hitems]
  have hlines : ∀ it ∈ es.map Entry.item, ∀ l,
      ItemLine renderNode (pad (deeper ctx 1)) ctx (deeper ctx 2) name it l ↔
        ItemLine renderNode (pad (deeper ctx 1)) (deeper ctx 1) (deeper ctx 2) (ascii "item") it l := by
    intro it hit l
    obtain ⟨e, he, rfl⟩ := List.mem_map.mp hit
    have hctx : ∀ who,
        termArg renderNode ctx who e.term = termArg renderNode (deeper ctx 1) who e.term := by
      refine termArg_congr fun d hd => ?_
      rcases hterm with hflat | hun
      · have hdeep : (deeper ctx 1).indent = false := hflat
        exact renderNode_flat hflat hdeep d
      · exact renderNode_unindented d.depth d ctx _ le_rfl
          (Val.unindented_leaves e.term (hun e he) d hd)
    constructor
    · rintro ⟨t, body, ht, hbody, hl⟩
      exact ⟨t, body, (hctx _).symm.trans (termArg_who _ ht), renderChildren_who _ hbody, hl⟩
    · rintro ⟨t, body, ht, hbody, hl⟩
      exact ⟨t, body, (hctx _).trans (termArg_who _ ht), renderChildren_who _ hbody, hl⟩
  exact exists_congr fun ls => and_congr_left fun _ => forall₂_congr_mem hlines

/-- A description list with a nested list, either way and indented. -/
theorem listForm_iff_description :
    let entry : Entry := ⟨.str (ascii "T"),
      [.str (ascii "a"), .listenv (ascii "itemize") .none [.str (ascii "b")]], by decide⟩
    ∃ x y, listForm (ascii "description") .nil [entry] = .ok x ∧
      envForm (ascii "description") .nil [entry] = .ok y ∧
      ∀ r, renderNode x ⟨true, 0⟩ = .ok r ↔ renderNode y ⟨true, 0⟩ = .ok r :=
  let entry : Entry := ⟨.str (ascii "T"),
    [.str (ascii "a"), .listenv (ascii "itemize") .none [.str (ascii "b")]], by decide⟩
  have ⟨x, y, hx, hy, h⟩ := listForm_iff (ascii "description") .nil (List.cons_ne_nil entry [])
  ⟨x, y, hx, hy, h ⟨true, 0⟩ (.inr (by decide))⟩

/-- A command is inline, whatever its arguments are: in one spelling the list within the term
is indented, in the other it is not. -/
theorem listForm_ne_envForm :
    let boxed : Val := .cmd (ascii "parbox") .none
      [.str (ascii "5cm"), .listenv (ascii "itemize") .none [.str (ascii "a")]]
    let entry : Entry := ⟨boxed, [.str (ascii "x")], by decide⟩
    let ofList := listForm (ascii "itemize") .nil [entry] >>= fun x => .ok (render x true)
    let ofEnv := envForm (ascii "itemize") .nil [entry] >>= fun y => .ok (render y true)
    boxed.isBlock = false ∧ ofList ≠ ofEnv ∧
      ofList = .ok (.ok (ascii "\\begin{itemize}\n" ++
        (ascii "  \\item[\\parbox{5cm}\x7b\\begin{itemize}\n" ++ ascii "  \\item a\n" ++
          ascii "\\end{itemize}\x7d] x\n") ++ ascii "\\end{itemize}")) ∧
      ofEnv = .ok (.ok (ascii "\\begin{itemize}\n" ++
        (ascii "  \\item[\\parbox{5cm}\x7b  \\begin{itemize}\n" ++ ascii "    \\item a\n" ++
          ascii "  \\end{itemize}\x7d] x\n") ++ ascii "\\end{itemize}")) := by
  decide

end Tmg.Latex
