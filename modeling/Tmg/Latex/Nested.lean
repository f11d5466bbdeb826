/-
# `Tmg.Latex.Nested` — a node inside a document

`Child c y` says that the renderer of `y` renders `c`; a value is nested in another along a
chain of these (`Within`).  Every position counts: the children of a fragment, a section, an
environment or the document, an argument before the first nil, the entry of a list and its
term, a cell, a caption, a line of the preamble.

What the renderers do with the string of a child is to put other strings around it; only
`\item` takes something away, the blanks at the head of its body.  So a text that does not
begin with a blank, once it is in the string of a child, is in the string of the document:

    Bears t c   →   Child c y   →   Bears t y                       (`Child.bears`)

A list is opened by its parent, and an item of a list environment is taken apart, so what is
handed on is what is known of the leaves of a value and of its parts (`Bears`).
-/
import Tmg.Lib.Strip
import Tmg.Latex.OptionalArg

namespace Tmg.Latex

open Tmg Lib

/-! ## Positions -/

/-- The arguments that are rendered, those before the first nil. -/
def beforeNil (args : List Val) : List Val := args.takeWhile fun a => !a.isNil

theorem mem_beforeNil_cons {c a : Val} {args : List Val} (h : c ∈ beforeNil (a :: args)) :
    a.isNil = false ∧ (c = a ∨ c ∈ beforeNil args) := by
  cases ha : a.isNil with
  | true => simp [beforeNil, ha] at h
  | false =>
      rw [beforeNil, List.takeWhile_cons_of_pos (by simp [ha])] at h
      exact ⟨rfl, List.mem_cons.mp h⟩

/-- A cell of the header or of a row. -/
def TabCfg.Cell (t : TabCfg Val) (c : Val) : Prop :=
  ∃ term cells, (t.header = .list term cells ∨ .list term cells ∈ t.rows) ∧ c ∈ cells

/-- A value in a position that the renderer of another one renders. -/
inductive Child : Val → Val → Prop
  | list {c term items} : c ∈ items → Child c (.list term items)
  | frag {c cs} : c ∈ cs → Child c (.frag cs)
  | par {c cs} : c ∈ cs → Child c (.par cs)
  | arg {c name opts args} : c ∈ beforeNil args → Child c (.cmd name opts args)
  | envArg {c name opts args cs} : c ∈ beforeNil args → Child c (.env name opts args cs)
  | env {c name opts args cs} : c ∈ cs → Child c (.env name opts args cs)
  | itemTerm {term cs} : Child term (.item term cs)
  | item {c term cs} : c ∈ cs → Child c (.item term cs)
  | title {c cmd star short label title cs} :
      c ∈ title → Child c (.sec cmd star short label title cs)
  | sec {c cmd star short label title cs} :
      c ∈ cs → Child c (.sec cmd star short label title cs)
  | entryTerm {env opts items term parts} :
      .list term parts ∈ items → Child term (.listenv env opts items)
  | entry {c env opts items} : c ∈ items → Child c (.listenv env opts items)
  | tabular {c t} : t.Cell c → Child c (.tabular t)
  | table {c t fl} : t.Cell c → Child c (.table t fl)
  | tableCaption {t fl} : Child fl.caption (.table t fl)
  | figureCaption {fig fl} : Child fl.caption (.figure fig fl)
  | preamble {c d cs} : c ∈ beforeNil d.preamble → Child c (.document d cs)
  | docTitle {d cs} : Child d.title (.document d cs)
  | author {d cs} : Child d.author (.document d cs)
  | date {d cs} : Child d.date (.document d cs)
  | document {c d cs} : c ∈ cs → Child c (.document d cs)

/-- A value somewhere in another, or the value itself. -/
abbrev Within : Val → Val → Prop := Relation.ReflTransGen Child

/-! ## A text in what is rendered -/

/-- A node or a list, which are not taken for anything else where they stand. -/
def Val.isMarkup : Val → Bool
  | nil => false
  | bool _ => false
  | num _ => false
  | str _ => false
  | other _ => false
  | _ => true

/-- What a list environment takes apart. -/
def Val.isEntry : Val → Bool
  | item _ _ => true
  | list _ _ => true
  | _ => false

/-- The text is part of whatever one of the leaves is rendered to. -/
def InLeaves (t : Bytes) (cs : List Val) : Prop :=
  ∃ z ∈ Val.leavesList cs, ∀ ctx, Returns (fun r => t <:+: r.1) (renderNode z ctx)

/-- The text is part of a term that counts. -/
def InTerm (t : Bytes) (term : Val) : Prop := term.truthy = true ∧ InLeaves t [term]

/-- The text is part of whatever the value is rendered to, wherever it stands. -/
structure Bears (t : Bytes) (y : Val) : Prop where
  markup : y.isMarkup = true
  leaf : InLeaves t [y]
  item : ∀ term cs, y = .item term cs ∨ y = .list term cs → InTerm t term ∨ InLeaves t cs

variable {t : Bytes}

theorem Bears.truthy {y : Val} (h : Bears t y) : y.truthy = true := by
  cases y <;> first | rfl | exact absurd h.markup Bool.false_ne_true

theorem Bears.isNil {y : Val} (h : Bears t y) : y.isNil = false := by
  cases y <;> first | rfl | exact absurd h.markup Bool.false_ne_true

theorem Bears.inTerm {y : Val} (h : Bears t y) : InTerm t y := ⟨h.truthy, h.leaf⟩

theorem InLeaves.of_mem {c : Val} {cs : List Val} (h : InLeaves t [c]) (hc : c ∈ cs) :
    InLeaves t cs := by
  obtain ⟨z, hz, hr⟩ := h
  obtain ⟨as, bs, rfl⟩ := List.append_of_mem hc
  refine ⟨z, ?_, hr⟩
  rw [leavesList_singleton] at hz
  rw [Val.leavesList_append, Val.leavesList]
  exact List.mem_append_right _ (List.mem_append_left _ hz)

theorem InLeaves.append {as : List Val} (h : InLeaves t as) (bs : List Val) :
    InLeaves t (as ++ bs) := by
  obtain ⟨z, hz, hr⟩ := h
  exact ⟨z, by rw [Val.leavesList_append]; exact List.mem_append_left _ hz, hr⟩

theorem InLeaves.trim {cs : List Val} (h : InLeaves t cs) : InLeaves t (Val.trim cs) := by
  rw [InLeaves, Val.leavesList_trim]
  exact h

/-- A node whose renderer writes the text has it in its leaf. -/
theorem inLeaves_node {y : Val} (hleaves : y.leaves = [y])
    (h : ∀ ctx, Returns (fun r => t <:+: r.1) (renderStep renderNode y ctx)) : InLeaves t [y] := by
  refine ⟨y, ?_, fun ctx => renderNode_eq y ctx ▸ h ctx⟩
  rw [leavesList_singleton, hleaves]
  exact List.mem_singleton_self y

/-- What is no list and no item bears what its renderer writes. -/
theorem bears_node {y : Val} (hmarkup : y.isMarkup = true) (hentry : y.isEntry = false)
    (h : ∀ ctx, Returns (fun r => t <:+: r.1) (renderStep renderNode y ctx)) : Bears t y where
  markup := hmarkup
  leaf := by
    refine inLeaves_node ?_ h
    cases y with
    | nil => exact absurd hmarkup Bool.false_ne_true
    | list term cs => exact absurd hentry.symm Bool.false_ne_true
    | _ => rfl
  item := by
    rintro term cs (rfl | rfl)
    · exact absurd hentry.symm Bool.false_ne_true
    · exact absurd hentry.symm Bool.false_ne_true

/-! ## `render_children` and what is made of it -/

theorem infix_tableConcat {sep l : Bytes} : ∀ {ls : List Bytes}, l ∈ ls → l <:+: tableConcat sep ls
  | s :: ls, hl => by
      rw [tableConcat_cons]
      rcases List.mem_cons.mp hl with rfl | hl
      · exact List.infix_append_left
      · refine List.infix_append_of_infix_right ?_
        obtain ⟨as, bs, rfl⟩ := List.append_of_mem hl
        rw [List.flatMap_append, List.flatMap_cons]
        exact List.infix_append_of_infix_right
          (List.infix_append_of_infix_left (List.infix_append_of_infix_right List.infix_rfl))

/-- The text is part of one of the lines. -/
def InLines (t : Bytes) (ls : List Bytes) : Prop := ∃ l ∈ ls, t <:+: l

theorem InLines.cons_self {l : Bytes} (h : t <:+: l) (ls : List Bytes) : InLines t (l :: ls) :=
  ⟨l, List.mem_cons_self, h⟩

theorem InLines.mono {ls ls' : List Bytes} (h : InLines t ls) (hsub : ls ⊆ ls') : InLines t ls' := by
  obtain ⟨l, hl, htl⟩ := h
  exact ⟨l, hsub hl, htl⟩

theorem InLines.tableConcat {ls : List Bytes} (h : InLines t ls) (sep : Bytes) :
    t <:+: tableConcat sep ls := by
  obtain ⟨l, hl, htl⟩ := h
  exact htl.trans (infix_tableConcat hl)

theorem infix_glued {bsep : Bytes} {p : Bytes × Bool} {ps : List (Bytes × Bool)} (hp : p ∈ ps) :
    p.1 <:+: glued bsep ps := by
  cases hk : kept p with
  | true =>
      rw [glued_eq_joinWith]
      exact infix_joinWith (List.mem_filter.mpr ⟨hp, hk⟩)
  | false =>
      have hnil : p.1 = [] := by
        rw [kept, Bool.or_eq_false_iff] at hk
        simpa using hk.2
      rw [hnil]
      exact List.nil_infix

theorem InLeaves.renderChildren {cs : List Val} (h : InLeaves t cs) (ctx : Ctx) (who bsep : Bytes) :
    Returns (fun r => t <:+: r.1) (renderChildren renderNode cs ctx who bsep) := by
  intro r hr
  obtain ⟨-, pieces, hpieces, rfl⟩ := (renderChildren_eq_ok_iff _).mp hr
  obtain ⟨z, hz, hbears⟩ := h
  obtain ⟨p, hp, hzp⟩ := exists_mem_of_forall₂ hpieces hz
  exact (hbears ctx p hzp).trans (infix_glued hp)

theorem InLeaves.inlineVal {x : Val} (h : InLeaves t [x]) (ctx : Ctx) (who : Bytes) :
    Returns (t <:+: ·) (inlineVal renderNode x ctx who) :=
  (h.renderChildren ctx who parSep).bind fun _ hr => returns_ok hr

theorem infix_braced {s : Bytes} (h : t <:+: s) : t <:+: braced s :=
  List.infix_cons (List.infix_append_of_infix_left h)

theorem infix_bracketed {s : Bytes} (h : t <:+: s) : t <:+: bracketed s :=
  List.infix_cons (List.infix_append_of_infix_left h)

theorem InTerm.termArg {term : Val} (h : InTerm t term) (ctx : Ctx) (who : Bytes) :
    Returns (t <:+: ·) (termArg renderNode ctx who term) := by
  rw [Latex.termArg, if_pos h.1]
  exact (h.2.inlineVal ctx who).bind fun _ hs => returns_ok (infix_bracketed hs)

/-- An argument before the first nil is rendered. -/
theorem Bears.renderArgs {c : Val} (h : Bears t c) (ctx : Ctx) (who : Bytes) :
    ∀ {args : List Val}, c ∈ beforeNil args →
      Returns (t <:+: ·) (renderArgs renderNode ctx who args)
  | a :: args, hc => by
      obtain ⟨ha, hc⟩ := mem_beforeNil_cons hc
      rw [Latex.renderArgs, ha, if_neg Bool.false_ne_true]
      rcases hc with rfl | hc
      · exact (h.leaf.inlineVal ctx who).bind fun _ hs => .after fun _ =>
          returns_ok (List.infix_append_of_infix_left (infix_braced hs))
      · exact .after fun _ => (h.renderArgs ctx who hc).bind fun _ hs =>
          returns_ok (List.infix_append_of_infix_right hs)

theorem Bears.envArg {c : Val} (h : Bears t c) (ctx : Ctx) (who : Bytes) :
    Returns (t <:+: ·) (envArg renderNode ctx who c) := by
  cases c with
  | str s => exact absurd h.markup Bool.false_ne_true
  | _ => exact h.leaf.inlineVal ctx who

theorem Bears.envArgs {c : Val} (h : Bears t c) (ctx : Ctx) (who : Bytes) :
    ∀ {args : List Val}, c ∈ beforeNil args →
      Returns (t <:+: ·) (envArgs renderNode ctx who args)
  | a :: args, hc => by
      obtain ⟨ha, hc⟩ := mem_beforeNil_cons hc
      rw [Latex.envArgs, ha, if_neg Bool.false_ne_true]
      rcases hc with rfl | hc
      · exact (h.envArg ctx who).bind fun _ hs => .after fun _ =>
          returns_ok (List.infix_append_of_infix_left (infix_braced hs))
      · exact .after fun _ => (h.envArgs ctx who hc).bind fun _ hs =>
          returns_ok (List.infix_append_of_infix_right hs)

/-! ## Items -/

theorem infix_spaced {body : Bytes} (h : t <:+: body) : t <:+: spaced body := by
  rw [spaced]
  split
  · next hbody => exact hbody ▸ h
  · exact List.infix_append_of_infix_right h

theorem infix_itemLine_term {term : Bytes} (h : t <:+: term) (p body : Bytes) :
    t <:+: itemLine p term body :=
  List.infix_append_of_infix_left (List.infix_append_of_infix_right h)

theorem infix_itemLine_body {body : Bytes} (h : t <:+: body) (p term : Bytes) :
    t <:+: itemLine p term body :=
  List.infix_append_of_infix_right (infix_spaced h)

/-- The text is part of one of the items. -/
def InItems (t : Bytes) (items : List Item) : Prop :=
  ∃ it ∈ items, InTerm t it.term ∨ InLeaves t it.parts

theorem InItems.addToLast (c : Val) :
    ∀ {items : List Item}, InItems t items → InItems t (addToLast c items)
  | [x], ⟨it, hit, h⟩ => by
      obtain rfl := List.mem_singleton.mp hit
      refine ⟨_, List.mem_singleton_self _, ?_⟩
      exact h.imp_right fun hparts => hparts.append [c]
  | x :: y :: items, ⟨it, hit, h⟩ => by
      rw [Latex.addToLast]
      rcases List.mem_cons.mp hit with rfl | hit
      · exact ⟨it, List.mem_cons_self, h⟩
      · obtain ⟨it', hit', h'⟩ := InItems.addToLast c ⟨it, hit, h⟩
        exact ⟨it', List.mem_cons_of_mem _ hit', h'⟩

theorem inItems_addToLast {c : Val} (hc : InLeaves t [c]) :
    ∀ {items : List Item}, items ≠ [] → InItems t (addToLast c items)
  | [x], _ => by
      refine ⟨_, List.mem_singleton_self _, .inr ?_⟩
      exact hc.of_mem (List.mem_append_right _ (List.mem_singleton_self c))
  | x :: y :: items, _ => by
      rw [Latex.addToLast]
      obtain ⟨it, hit, h⟩ := inItems_addToLast hc (List.cons_ne_nil y items)
      exact ⟨it, List.mem_cons_of_mem _ hit, h⟩

/-- What is in an item stays there. -/
theorem InItems.openItem {items : List Item} (h : InItems t items) (c : Val) :
    InItems t (openItem c items) := by
  have hpush : ∀ x : Item, InItems t (items ++ [x]) := fun x => by
    obtain ⟨it, hit, hin⟩ := h
    exact ⟨it, List.mem_append_left _ hit, hin⟩
  cases c with
  | listenv e o its =>
      rw [Latex.openItem]
      split
      · exact h.addToLast _
      · exact hpush _
  | _ => exact hpush _

/-- An entry that bears the text brings it into an item. -/
theorem Bears.openItem {c : Val} (h : Bears t c) (items : List Item) :
    InItems t (openItem c items) := by
  have hpush : ∀ x : Item, InTerm t x.term ∨ InLeaves t x.parts → InItems t (items ++ [x]) :=
    fun x hx => ⟨x, List.mem_append_right _ (List.mem_singleton_self x), hx⟩
  cases c with
  | listenv e o its =>
      rw [Latex.openItem]
      split
      · next hlen => exact inItems_addToLast h.leaf (List.ne_nil_of_length_pos hlen)
      · exact hpush _ (.inr h.leaf)
  | list term its => exact hpush _ ((h.item term its (.inr rfl)).imp_right InLeaves.trim)
  | item term its => exact hpush _ ((h.item term its (.inl rfl)).imp_right InLeaves.trim)
  | _ => exact hpush _ (.inr h.leaf)

theorem inItems_openItem_term {term : Val} (h : InTerm t term) (parts : List Val)
    (items : List Item) : InItems t (openItem (.list term parts) items) :=
  ⟨_, List.mem_append_right _ (List.mem_singleton_self _), .inl h⟩

/-- An entry that brings the text into an item. -/
def Brings (t : Bytes) (c : Val) : Prop := c.isNil = false ∧ ∀ items, InItems t (openItem c items)

theorem inItems_groupItems (env : Bytes) :
    ∀ (rest : List Val) (i : Nat) (items : List Item), (InItems t items ∨ ∃ c ∈ rest, Brings t c) →
      Returns (InItems t) (groupItems env i rest items)
  | [], _, items, h => by
      rcases h with h | ⟨c, hc, -⟩
      · exact returns_ok h
      · exact absurd hc List.not_mem_nil
  | c :: rest, i, items, h => by
      cases hc : c.isNil with
      | true =>
          cases c with
          | nil =>
              rw [groupItems]
              split
              · next hall =>
                  rcases h with h | ⟨d, hd, hnil, -⟩
                  · exact returns_ok h
                  · have hall' : Val.allNil (.nil :: rest) = true := hall
                    rw [Val.allNil, List.all_eq_true] at hall'
                    exact absurd (hall' d hd) (by simp [hnil])
              · exact returns_error _
          | _ => exact absurd hc Bool.false_ne_true
      | false =>
          rw [groupItems_cons hc]
          refine inItems_groupItems env rest (i + 1) _ ?_
          rcases h with h | ⟨d, hd, hbrings⟩
          · exact .inl (h.openItem c)
          · rcases List.mem_cons.mp hd with rfl | hd
            · exact .inl (hbrings.2 items)
            · exact .inr ⟨d, hd, hbrings⟩

/-- The lines of a list: the blanks at the head of a body are not part of the text. -/
theorem InItems.itemLines (ht : ∀ b ∈ t.head?, isSpace b = false) {items : List Item}
    (h : InItems t items) (env p1 : Bytes) (ctx ictx : Ctx) :
    Returns (InLines t) (R.itemLines renderNode env p1 ctx ictx items) := by
  intro ls hls
  obtain ⟨it, hit, hin⟩ := h
  obtain ⟨l, hl, term, body, hterm, hbody, rfl⟩ :=
    exists_mem_of_forall₂ ((itemLines_eq_ok_iff _ env p1 ctx ictx items ls).mp hls) hit
  refine ⟨_, hl, ?_⟩
  rcases hin with hin | hin
  · exact infix_itemLine_term (hin.termArg ctx env term hterm) _ _
  · exact infix_itemLine_body (infix_dropWhile ht (hin.renderChildren ictx env _ body hbody)) _ _

theorem Brings.list (ht : ∀ b ∈ t.head?, isSpace b = false) {c : Val} {items : List Val}
    (hc : Brings t c) (hmem : c ∈ items) (env : Bytes) (opts : Opts) (ctx : Ctx) :
    Returns (fun r => t <:+: r.1) (R.list renderNode env opts items ctx) := by
  refine (inItems_groupItems env items 1 [] (.inr ⟨c, hmem, hc⟩)).bind fun its hits => ?_
  refine (hits.itemLines ht env _ ctx _).bind fun lines hlines => returns_ok ?_
  refine InLines.tableConcat (hlines.mono fun l hl => ?_) _
  exact List.mem_append_left _ (List.mem_append_right _ hl)

/-! ## Tables and floats -/

theorem Bears.rowCells {c : Val} (h : Bears t c) (ctx : Ctx) (what : Bytes) :
    ∀ {cells : List Val} {i : Nat}, c ∈ cells →
      Returns (InLines t) (rowCells renderNode ctx what i cells)
  | d :: cells, i, hc => by
      rw [Latex.rowCells]
      cases hd : d.isNil with
      | true =>
          rw [if_pos rfl]
          split
          · next hall =>
              rw [Val.allNil, List.all_eq_true] at hall
              rcases List.mem_cons.mp hc with rfl | hc
              · exact absurd hd (by simp [h.isNil])
              · exact absurd (hall c hc) (by simp [h.isNil])
          · exact returns_error _
      | false =>
          rw [if_neg Bool.false_ne_true]
          rcases List.mem_cons.mp hc with rfl | hc
          · exact (h.leaf.inlineVal ctx _).bind fun s hs => .after fun rest =>
              returns_ok (.cons_self hs rest)
          · exact .after fun s => (h.rowCells ctx what hc).bind fun rest hrest =>
              returns_ok (hrest.mono (List.subset_cons_self s rest))

theorem Bears.rowStr {c : Val} (h : Bears t c) (ctx : Ctx) (what : Bytes) (term : Val)
    {cells : List Val} (hc : c ∈ cells) :
    Returns (t <:+: ·) (rowStr renderNode ctx what (.list term cells)) :=
  (h.rowCells ctx what hc).bind fun _ hout =>
    returns_ok (List.infix_append_of_infix_left (hout.tableConcat _))

theorem Bears.rowLines {c : Val} (h : Bears t c) (ctx : Ctx) (p1 : Bytes) {term : Val}
    {cells : List Val} (hc : c ∈ cells) :
    ∀ {rows : List Val} {i : Nat}, .list term cells ∈ rows →
      Returns (InLines t) (rowLines renderNode ctx p1 i rows)
  | r :: rows, i, hrow => by
      have hlater : ∀ (l : Bytes), .list term cells ∈ rows →
          Returns (InLines t)
            (Latex.rowLines renderNode ctx p1 (i + 1) rows >>= fun rest => .ok (l :: rest)) := by
        intro l hin
        exact (h.rowLines ctx p1 hc hin).bind fun rest hrest =>
          returns_ok (hrest.mono (List.subset_cons_self l rest))
      rcases List.mem_cons.mp hrow with rfl | hin
      · exact (h.rowStr ctx _ term hc).bind fun s hs => .after fun rest =>
          returns_ok (.cons_self (List.infix_append_of_infix_right hs) rest)
      · cases r with
        | nil =>
            rw [Latex.rowLines]
            split
            · next hall =>
                rw [Val.allNil, List.all_eq_true] at hall
                exact absurd (hall _ hin) (by simp [Val.isNil])
            · exact returns_error _
        | rule cmd => exact hlater _ hin
        | _ => exact .after fun s => hlater _ hin

theorem Bears.headerLines {c : Val} (h : Bears t c) (ctx : Ctx) (p1 mid : Bytes) (term : Val)
    {cells : List Val} (hc : c ∈ cells) :
    Returns (InLines t)
      (headerLines renderNode ctx p1 mid (.list term cells)) :=
  (h.rowStr ctx _ term hc).bind fun _ hs =>
    returns_ok (.cons_self (List.infix_append_of_infix_right hs) _)

theorem Bears.tabularBody {c : Val} (h : Bears t c) {tab : TabCfg Val} (hc : tab.Cell c)
    (ctx : Ctx) : Returns (t <:+: ·) (tabularBody renderNode tab ctx) := by
  obtain ⟨term, cells, hrow, hc⟩ := hc
  refine .after fun n => ?_
  rcases hrow with hheader | hrow
  · rw [hheader]
    refine (h.headerLines ctx _ _ term hc).bind fun head hhead => .after fun rows => returns_ok ?_
    refine InLines.tableConcat (hhead.mono fun l hl => ?_) _
    exact List.mem_append_left _ (List.mem_append_left _ (List.mem_append_right _ hl))
  · refine .after fun head => (h.rowLines ctx _ hc hrow).bind fun rows hrows => returns_ok ?_
    refine InLines.tableConcat (hrows.mono fun l hl => ?_) _
    exact List.mem_append_left _ (List.mem_append_right _ hl)

theorem Bears.tabularLines {c : Val} (h : Bears t c) {tab : TabCfg Val} (hc : tab.Cell c)
    (ctx : Ctx) : Returns (t <:+: ·) (tabularLines renderNode tab ctx) := by
  rw [Latex.tabularLines]
  split
  · refine (h.tabularBody hc _).bind fun inner hinner => returns_ok ?_
    refine List.infix_append_of_infix_right (infix_braced ?_)
    exact List.infix_append_of_infix_left (List.infix_append_of_infix_left
      (List.infix_append_of_infix_right hinner))
  · exact h.tabularBody hc ctx

theorem floatLines_body {body : List Bytes} (h : InLines t body) (env : Bytes)
    (fl : FloatCfg Val) (ctx : Ctx) (defaultPos defaultCap : Bytes) :
    Returns (t <:+: ·) (floatLines renderNode env fl ctx body defaultPos defaultCap) := by
  refine .after fun caption => returns_ok ?_
  refine InLines.tableConcat (h.mono fun l hl => ?_) _
  exact List.mem_append_left _ (List.mem_append_left _ (List.mem_append_right _ hl))

theorem floatLines_caption {fl : FloatCfg Val} (h : Bears t fl.caption) (env : Bytes) (ctx : Ctx)
    (body : List Bytes) (defaultPos defaultCap : Bytes) :
    Returns (t <:+: ·) (floatLines renderNode env fl ctx body defaultPos defaultCap) := by
  have hcaption : ∀ p1, Returns (InLines t)
      (captionLine renderNode ctx env p1 fl.caption) := by
    intro p1
    rw [captionLine, if_pos h.truthy]
    exact (h.leaf.inlineVal ctx env).bind fun _ hs =>
      returns_ok (.cons_self (List.infix_append_of_infix_right (infix_braced hs)) [])
  refine (hcaption _).bind fun caption hlines => returns_ok ?_
  refine InLines.tableConcat (hlines.mono fun l hl => ?_) _
  simp only [List.mem_append]
  by_cases htop : fl.captionPos.getD defaultCap = ascii "top"
  · simp [htop, hl]
  · simp [htop, hl]

/-! ## The document -/

/-- A list is refused where it is not opened; another value is its own leaf. -/
theorem Bears.node {c : Val} (h : Bears t c) (ctx : Ctx) :
    Returns (fun r => t <:+: r.1) (renderNode c ctx) := by
  obtain ⟨z, hz, hr⟩ := h.leaf
  rw [leavesList_singleton] at hz
  cases c with
  | list term items =>
      rw [renderNode_eq]
      exact returns_error _
  | nil => exact absurd hz List.not_mem_nil
  | _ => exact List.mem_singleton.mp hz ▸ hr ctx

theorem Bears.preambleLine {c : Val} (h : Bears t c) (ctx : Ctx) :
    Returns (t <:+: ·) (R.preambleLine renderNode ctx c) := by
  cases c with
  | str s => exact absurd h.markup Bool.false_ne_true
  | _ => exact (h.node ctx).bind fun _ hr => returns_ok hr

theorem Bears.preambleLines {c : Val} (h : Bears t c) (ctx : Ctx) :
    ∀ {items : List Val}, c ∈ beforeNil items →
      Returns (InLines t) (R.preambleLines renderNode ctx items)
  | a :: items, hc => by
      obtain ⟨ha, hc⟩ := mem_beforeNil_cons hc
      rw [R.preambleLines, ha, if_neg Bool.false_ne_true]
      rcases hc with rfl | hc
      · exact (h.preambleLine ctx).bind fun s hs => .after fun rest =>
          returns_ok (.cons_self hs rest)
      · exact .after fun s => (h.preambleLines ctx hc).bind fun rest hrest =>
          returns_ok (hrest.mono (List.subset_cons_self s rest))

theorem Bears.headLine {x : Val} (h : Bears t x) (ctx : Ctx) (command who : Bytes) :
    Returns (InLines t) (R.headLine renderNode ctx command who x) := by
  rw [R.headLine, if_pos h.truthy]
  exact (h.leaf.inlineVal ctx who).bind fun _ hs =>
    returns_ok (.cons_self (List.infix_append_of_infix_right (infix_braced hs)) [])

theorem Bears.dateLine {x : Val} (h : Bears t x) (ctx : Ctx) :
    Returns (InLines t) (R.dateLine renderNode ctx x) := by
  have hline : Returns (InLines t)
      (inlineVal renderNode x ctx (ascii "date") >>= fun s => .ok [ascii "\\date" ++ braced s]) :=
    (h.leaf.inlineVal ctx _).bind fun _ hs =>
      returns_ok (.cons_self (List.infix_append_of_infix_right (infix_braced hs)) [])
  cases x with
  | nil => exact absurd h.markup Bool.false_ne_true
  | bool b => exact absurd h.markup Bool.false_ne_true
  | _ => exact hline

/-- The head of a document and its parts are all written. -/
theorem infix_document {head : Bytes} {parts : List Bytes} (h : t <:+: head ∨ InLines t parts)
    (sep tail : Bytes) :
    t <:+: (if parts.length > 0 then head ++ sep ++ tableConcat sep parts else head) ++ tail := by
  refine List.infix_append_of_infix_left ?_
  split
  · rcases h with h | h
    · exact List.infix_append_of_infix_left (List.infix_append_of_infix_left h)
    · exact List.infix_append_of_infix_right (h.tableConcat sep)
  · next hlen =>
      rcases h with h | ⟨l, hl, -⟩
      · exact h
      · exact absurd (List.length_pos_of_mem hl) hlen

theorem document_head {d : DocCfg Val} {ctx : Ctx} (cs : List Val)
    (h : (∃ c ∈ beforeNil d.preamble, Bears t c) ∨ Bears t d.title ∨ Bears t d.author ∨
      Bears t d.date) :
    Returns (fun r => t <:+: r.1) (R.document renderNode d cs ctx) := by
  have hwrite : ∀ {ls head parts : List Bytes}, InLines t ls → ls ⊆ head →
      t <:+: (if parts.length > 0 then
          tableConcat (ascii "\n") head ++ ascii "\n\n" ++ beginTag (ascii "document")
            ++ ascii "\n\n" ++ tableConcat (ascii "\n\n") parts
        else tableConcat (ascii "\n") head ++ ascii "\n\n" ++ beginTag (ascii "document"))
        ++ ascii "\n\n" ++ endTag (ascii "document") := by
    intro ls head parts hls hsub
    rw [List.append_assoc _ (ascii "\n\n") (endTag _)]
    refine infix_document (.inl ?_) _ _
    exact List.infix_append_of_infix_left (List.infix_append_of_infix_left
      ((hls.mono hsub).tableConcat _))
  rcases h with ⟨c, hc, h⟩ | h | h | h
  · exact (h.preambleLines ctx hc).bind fun preamble hpre => .after fun title => .after fun author =>
      .after fun date => .after fun body => returns_ok (hwrite hpre fun l hl => by simp [hl])
  · exact .after fun preamble => (h.headLine ctx _ _).bind fun title htitle => .after fun author =>
      .after fun date => .after fun body => returns_ok (hwrite htitle fun l hl => by simp [hl])
  · exact .after fun preamble => .after fun title => (h.headLine ctx _ _).bind fun author hauthor =>
      .after fun date => .after fun body => returns_ok (hwrite hauthor fun l hl => by simp [hl])
  · exact .after fun preamble => .after fun title => .after fun author =>
      (h.dateLine ctx).bind fun date hdate => .after fun body =>
        returns_ok (hwrite hdate fun l hl => by simp [hl])

theorem document_body {cs : List Val} (h : InLeaves t cs) (d : DocCfg Val) (ctx : Ctx) :
    Returns (fun r => t <:+: r.1) (R.document renderNode d cs ctx) := by
  refine .after fun preamble => .after fun title => .after fun author => .after fun date =>
    (h.renderChildren ctx _ _).bind fun body hbody => returns_ok ?_
  dsimp only
  by_cases hnil : body.1 = []
  · rw [hnil] at hbody
    rw [List.infix_nil.mp hbody]
    exact List.nil_infix
  · rw [List.append_assoc _ (ascii "\n\n") (endTag _)]
    refine infix_document (.inr ⟨body.1, ?_, hbody⟩) _ _
    simp [hnil]

/-! ## Sections and environments -/

theorem Bears.sec_title {c : Val} (h : Bears t c) {title : List Val} (hc : c ∈ title) (cmd : Bytes)
    (star : Bool) (short label : Option Bytes) (cs : List Val) (ctx : Ctx) :
    Returns (fun r => t <:+: r.1) (R.sec renderNode cmd star short label title cs ctx) := by
  refine ((h.leaf.of_mem hc).renderChildren ctx _ _).bind fun s hs => .after fun body =>
    returns_ok ?_
  have hbraced : ∀ a : Bytes, t <:+: a ++ braced s.1 := fun a =>
    List.infix_append_of_infix_right (infix_braced hs)
  dsimp only
  cases label with
  | none =>
      split
      · exact hbraced _
      · exact List.infix_append_of_infix_left (List.infix_append_of_infix_left (hbraced _))
  | some l =>
      have hlabel : ∀ a b : Bytes, t <:+: a ++ braced s.1 ++ ascii "\n\\label" ++ b := fun a b =>
        List.infix_append_of_infix_left (List.infix_append_of_infix_left (hbraced a))
      split
      · exact hlabel _ _
      · exact List.infix_append_of_infix_left (List.infix_append_of_infix_left (hlabel _ _))

/-- A body that is written behind a head, or left out if it is empty. -/
theorem infix_body {body : Bytes} (h : t <:+: body) (a b : Bytes) :
    t <:+: if body = [] then a else a ++ b ++ body := by
  split
  · next hbody => exact List.infix_nil.mp (hbody ▸ h) ▸ List.nil_infix
  · exact List.infix_append_of_infix_right h

theorem Bears.sec_body {c : Val} (h : Bears t c) {cs : List Val} (hc : c ∈ cs) (cmd : Bytes)
    (star : Bool) (short label : Option Bytes) (title : List Val) (ctx : Ctx) :
    Returns (fun r => t <:+: r.1) (R.sec renderNode cmd star short label title cs ctx) :=
  .after fun _ => ((h.leaf.of_mem hc).renderChildren ctx _ _).bind fun _ hbody =>
    returns_ok (infix_body hbody _ _)

theorem Bears.env_arg {c : Val} (h : Bears t c) {args : List Val} (hc : c ∈ beforeNil args)
    (name : Bytes) (opts : Opts) (cs : List Val) (ctx : Ctx) :
    Returns (fun r => t <:+: r.1) (R.env renderNode name opts args cs ctx) := by
  refine .after fun flat => (h.envArgs ctx name hc).bind fun s hs => .after fun body =>
    returns_ok ?_
  have hhead : ∀ a : Bytes, t <:+: a ++ s := fun a => List.infix_append_of_infix_right hs
  dsimp only
  split
  · exact List.infix_append_of_infix_left (List.infix_append_of_infix_left
      (List.infix_append_of_infix_left (hhead _)))
  · exact List.infix_append_of_infix_left (List.infix_append_of_infix_left
      (List.infix_append_of_infix_left (List.infix_append_of_infix_left
        (List.infix_append_of_infix_left (hhead _)))))

theorem Bears.env_body {c : Val} (h : Bears t c) {cs : List Val} (hc : c ∈ cs) (name : Bytes)
    (opts : Opts) (args : List Val) (ctx : Ctx) :
    Returns (fun r => t <:+: r.1) (R.env renderNode name opts args cs ctx) :=
  .after fun _ => .after fun _ => ((h.leaf.of_mem hc).renderChildren _ _ _).bind fun _ hbody =>
    returns_ok (List.infix_append_of_infix_left (List.infix_append_of_infix_left
      (List.infix_append_of_infix_left (infix_body hbody _ _))))

theorem InTerm.item_term {term : Val} (h : InTerm t term) (cs : List Val) (ctx : Ctx) :
    Returns (fun r => t <:+: r.1) (R.item renderNode term cs ctx) :=
  (h.termArg ctx _).bind fun _ hterm => .after fun _ =>
    returns_ok (infix_itemLine_term hterm _ _)

theorem InLeaves.item_body (ht : ∀ b ∈ t.head?, isSpace b = false) {cs : List Val}
    (h : InLeaves t cs) (term : Val) (ctx : Ctx) :
    Returns (fun r => t <:+: r.1) (R.item renderNode term cs ctx) :=
  .after fun _ => (h.renderChildren _ _ _).bind fun _ hbody =>
    returns_ok (infix_itemLine_body (infix_dropWhile ht hbody) _ _)

/-! ## Every position -/

/-- A text that does not begin with a blank passes from a child to the value it is in. -/
theorem Child.bears (ht : ∀ b ∈ t.head?, isSpace b = false) {c y : Val} (hchild : Child c y)
    (h : Bears t c) : Bears t y := by
  cases hchild with
  | list hc =>
      refine ⟨rfl, ?_, ?_⟩
      · obtain ⟨z, hz, hr⟩ := h.leaf.of_mem hc
        exact ⟨z, by rw [leavesList_singleton]; exact hz, hr⟩
      · rintro term cs (heq | heq)
        · cases heq
        · cases heq
          exact .inr (h.leaf.of_mem hc)
  | itemTerm =>
      refine ⟨rfl, inLeaves_node rfl fun ctx => h.inTerm.item_term _ ctx, ?_⟩
      rintro term cs (heq | heq)
      · cases heq
        exact .inl h.inTerm
      · cases heq
  | item hc =>
      refine ⟨rfl, inLeaves_node rfl fun ctx => (h.leaf.of_mem hc).item_body ht _ ctx, ?_⟩
      rintro term cs (heq | heq)
      · cases heq
        exact .inr (h.leaf.of_mem hc)
      · cases heq
  | frag hc =>
      exact bears_node rfl rfl fun ctx => (h.leaf.of_mem hc).renderChildren ctx _ _
  | par hc =>
      exact bears_node rfl rfl fun ctx =>
        ((h.leaf.of_mem hc).renderChildren ctx _ _).bind fun _ hs => returns_ok hs
  | arg hc =>
      exact bears_node rfl rfl fun ctx => (h.renderArgs ctx _ hc).bind fun _ hs =>
        returns_ok (List.infix_append_of_infix_right hs)
  | envArg hc => exact bears_node rfl rfl fun ctx => h.env_arg hc _ _ _ ctx
  | env hc => exact bears_node rfl rfl fun ctx => h.env_body hc _ _ _ ctx
  | title hc => exact bears_node rfl rfl fun ctx => h.sec_title hc _ _ _ _ _ ctx
  | sec hc => exact bears_node rfl rfl fun ctx => h.sec_body hc _ _ _ _ _ ctx
  | entryTerm hc =>
      exact bears_node rfl rfl fun ctx =>
        Brings.list ht ⟨rfl, inItems_openItem_term h.inTerm _⟩ hc _ _ ctx
  | entry hc =>
      exact bears_node rfl rfl fun ctx => Brings.list ht ⟨h.isNil, h.openItem⟩ hc _ _ ctx
  | tabular hc =>
      exact bears_node rfl rfl fun ctx => (h.tabularLines hc ctx).bind fun _ hs =>
        returns_ok hs
  | table hc =>
      exact bears_node rfl rfl fun ctx => (h.tabularLines hc _).bind fun body hbody =>
        (floatLines_body (.cons_self hbody []) _ _ ctx _ _).bind fun _ hs =>
          returns_ok hs
  | tableCaption =>
      exact bears_node rfl rfl fun ctx => .after fun body =>
        (floatLines_caption h _ ctx _ _ _).bind fun _ hs => returns_ok hs
  | figureCaption =>
      exact bears_node rfl rfl fun ctx =>
        (floatLines_caption h _ ctx _ _ _).bind fun _ hs => returns_ok hs
  | preamble hc =>
      exact bears_node rfl rfl fun ctx => document_head _ (.inl ⟨c, hc, h⟩)
  | docTitle => exact bears_node rfl rfl fun ctx => document_head _ (.inr (.inl h))
  | author =>
      exact bears_node rfl rfl fun ctx => document_head _ (.inr (.inr (.inl h)))
  | date =>
      exact bears_node rfl rfl fun ctx => document_head _ (.inr (.inr (.inr h)))
  | document hc =>
      exact bears_node rfl rfl fun ctx => document_body (h.leaf.of_mem hc) _ ctx

/-- It passes on to whatever the value is nested in. -/
theorem Within.bears (ht : ∀ b ∈ t.head?, isSpace b = false) {x y : Val} (hxy : Within x y)
    (h : Bears t x) : Bears t y := by
  induction hxy with
  | refl => exact h
  | tail _ hchild ih => exact hchild.bears ht ih

/-- So it is part of the document. -/
theorem Within.infix_render (ht : ∀ b ∈ t.head?, isSpace b = false) {x y : Val}
    (hxy : Within x y) (h : Bears t x) {indent : Bool} {out : Bytes}
    (hout : render y indent = .ok out) : t <:+: out := by
  rw [render_eq] at hout
  exact (hxy.bears ht h).leaf.inlineVal _ _ out hout

end Tmg.Latex
