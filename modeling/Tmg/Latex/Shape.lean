/-
# `Tmg.Latex.Shape` — what a value renders to, told from the value

Whether a child is rendered to a block, to nothing at all, or to nothing but white space
can be read off the child itself:

| | the value | what it is rendered to |
| :-- | :-- | :-- |
| `isBlock` | every node but commands, math, `L.raw` and fragments without a block | the flag is true |
| `isEmpty` | the empty string, and lists and fragments of such | an inline piece `""`, which does not count |
| `isBlank` | white space, and lists, fragments and paragraphs of it | nothing but white space |

`renderNode_shape` says so for every value that can be rendered, and with
`renderChildren_glued` the separators that `render_children` writes are known before
anything is rendered.
-/
import Tmg.Latex.Total
import Tmg.Latex.Children
import Tmg.Latex.Markup

namespace Tmg.Latex

open Tmg Lib

namespace Val

mutual

/-- Rendered to a block. -/
def isBlock : Val → Bool
  | nil => false
  | bool _ => false
  | num _ => false
  | str _ => false
  | other _ => false
  | cmd _ _ _ => false
  | m _ => false
  | raw _ block => block
  | list _ items => anyBlock items
  | frag cs => anyBlock cs
  | _ => true

def anyBlock : List Val → Bool
  | [] => false
  | c :: cs => isBlock c || anyBlock cs

end

mutual

/-- Rendered to an inline piece that is empty. -/
def isEmpty : Val → Bool
  | nil => true
  | num n => n.text.isEmpty
  | str s => s.isEmpty
  | raw s block => !block && s.isEmpty
  | list _ items => allEmpty items
  | frag cs => allEmpty cs
  | _ => false

def allEmpty : List Val → Bool
  | [] => true
  | c :: cs => isEmpty c && allEmpty cs

end

mutual

/-- Rendered to white space. -/
def isBlank : Val → Bool
  | nil => true
  | num n => n.text.all isSpace
  | str s => s.all isSpace
  | raw s _ => s.all isSpace
  | list _ items => allBlank items
  | frag cs => allBlank cs
  | par cs => allBlank cs
  | rule c => c.all isSpace
  | _ => false

def allBlank : List Val → Bool
  | [] => true
  | c :: cs => isBlank c && allBlank cs

end

mutual

theorem any_leaves (c : Val) : c.leaves.any isBlock = c.isBlock := by
  cases c with
  | list t items => exact any_leavesList items
  | nil => rfl
  | _ => exact Bool.or_false _

theorem any_leavesList : ∀ cs : List Val, (leavesList cs).any isBlock = anyBlock cs
  | [] => rfl
  | c :: cs => by rw [leavesList, List.any_append, any_leaves c, any_leavesList cs, anyBlock]

end

mutual

theorem all_isEmpty_leaves (c : Val) : c.leaves.all isEmpty = c.isEmpty := by
  cases c with
  | list t items => exact all_isEmpty_leavesList items
  | nil => rfl
  | _ => exact Bool.and_true _

theorem all_isEmpty_leavesList : ∀ cs : List Val, (leavesList cs).all isEmpty = allEmpty cs
  | [] => rfl
  | c :: cs => by
      rw [leavesList, List.all_append, all_isEmpty_leaves c, all_isEmpty_leavesList cs, allEmpty]

end

mutual

theorem all_isBlank_leaves (c : Val) : c.leaves.all isBlank = c.isBlank := by
  cases c with
  | list t items => exact all_isBlank_leavesList items
  | nil => rfl
  | _ => exact Bool.and_true _

theorem all_isBlank_leavesList : ∀ cs : List Val, (leavesList cs).all isBlank = allBlank cs
  | [] => rfl
  | c :: cs => by
      rw [leavesList, List.all_append, all_isBlank_leaves c, all_isBlank_leavesList cs, allBlank]

end

mutual

theorem depth_leaves (c : Val) : ∀ d ∈ c.leaves, d.depth ≤ c.depth := by
  cases c with
  | list t items =>
      intro d hd
      have := depth_leavesList items d hd
      rw [depth]
      omega
  | nil => exact nofun
  | _ =>
      intro d hd
      rw [List.mem_singleton.mp hd]

theorem depth_leavesList : ∀ cs : List Val, ∀ d ∈ leavesList cs, d.depth ≤ depthList cs
  | [], _, hd => absurd hd List.not_mem_nil
  | c :: cs, d, hd => by
      rw [depthList]
      rcases List.mem_append.mp hd with hd | hd
      · exact Nat.le_trans (depth_leaves c d hd) (Nat.le_max_left _ _)
      · exact Nat.le_trans (depth_leavesList cs d hd) (Nat.le_max_right _ _)

end

end Val

/-! ## Blocks that are not blank -/

/-- A block with a backslash in it. -/
def Solid (p : Bytes × Bool) : Prop := p.2 = true ∧ bsl ∈ p.1

theorem bsl_mem_endTag (x : Bytes) : bsl ∈ endTag x := List.mem_append_left _ (by decide)

/-- Lines, one of which has a backslash in it. -/
theorem bsl_mem_tableConcat (sep : Bytes) {ss : List Bytes} {s : Bytes} (hs : s ∈ ss)
    (h : bsl ∈ s) : bsl ∈ tableConcat sep ss := by
  cases ss with
  | nil => exact absurd hs List.not_mem_nil
  | cons t ts =>
      rw [tableConcat_cons]
      rcases List.mem_cons.mp hs with rfl | hs
      · exact List.mem_append_left _ h
      · exact List.mem_append_right _ (List.mem_flatMap.mpr ⟨s, hs, List.mem_append_right _ h⟩)

section

variable {one : Val → Ctx → Except LatexError (Bytes × Bool)}

theorem bsl_mem_tabularBody (t : TabCfg Val) (ctx : Ctx) :
    Returns (bsl ∈ ·) (tabularBody one t ctx) :=
  .after fun _ => .after fun _ => .after fun _ => returns_ok <| bsl_mem_tableConcat _
    (List.mem_append_right _ (List.mem_cons_of_mem _ List.mem_cons_self))
    (List.mem_append_right _ (bsl_mem_endTag _))

theorem bsl_mem_tabularLines (t : TabCfg Val) (ctx : Ctx) :
    Returns (bsl ∈ ·) (tabularLines one t ctx) := by
  unfold tabularLines
  split
  · exact .after fun _ => returns_ok (by simp [ascii, bsl])
  · exact bsl_mem_tabularBody t ctx

theorem bsl_mem_floatLines (env : Bytes) (fl : FloatCfg Val) (ctx : Ctx) (body : List Bytes)
    (defaultPos defaultCap : Bytes) :
    Returns (bsl ∈ ·) (floatLines one env fl ctx body defaultPos defaultCap) :=
  .after fun _ => returns_ok <| bsl_mem_tableConcat _
    (List.mem_append_right _ List.mem_cons_self) (List.mem_append_right _ (bsl_mem_endTag _))

namespace R

theorem solid_env (name : Bytes) (opts : Opts) (args cs : List Val) (ctx : Ctx) :
    Returns Solid (env one name opts args cs ctx) :=
  .after fun _ => .after fun _ => .after fun _ =>
    returns_ok ⟨rfl, List.mem_append_right _ (bsl_mem_endTag _)⟩

theorem solid_item (term : Val) (cs : List Val) (ctx : Ctx) :
    Returns Solid (item one term cs ctx) :=
  .after fun _ => .after fun _ => returns_ok ⟨rfl, by simp [itemLine, ascii, bsl]⟩

theorem solid_sec (cmd : Bytes) (star : Bool) (short label : Option Bytes) (title cs : List Val)
    (ctx : Ctx) : Returns Solid (sec one cmd star short label title cs ctx) := by
  refine .after fun _ => .after fun _ => returns_ok ⟨rfl, ?_⟩
  cases label with
  | none => split <;> simp [ascii, bsl]
  | some l => split <;> simp [ascii, bsl]

theorem solid_list (env : Bytes) (opts : Opts) (items : List Val) (ctx : Ctx) :
    Returns Solid (list one env opts items ctx) :=
  .after fun _ => .after fun _ => returns_ok ⟨rfl, bsl_mem_tableConcat _
    (List.mem_append_right _ List.mem_cons_self) (List.mem_append_right _ (bsl_mem_endTag _))⟩

theorem solid_document (d : DocCfg Val) (cs : List Val) (ctx : Ctx) :
    Returns Solid (document one d cs ctx) :=
  .after fun _ => .after fun _ => .after fun _ => .after fun _ => .after fun _ =>
    returns_ok ⟨rfl, List.mem_append_right _ (bsl_mem_endTag _)⟩

end R

/-- What the value says of the piece. -/
structure Val.Shape (c : Val) (p : Bytes × Bool) : Prop where
  block : p.2 = c.isBlock
  kept : kept p = !c.isEmpty
  blank : p.1.all isSpace = c.isBlank

theorem Solid.shape {c : Val} {p : Bytes × Bool} (h : Solid p) (hblock : c.isBlock = true)
    (hempty : c.isEmpty = false) (hblank : c.isBlank = false) : c.Shape p where
  block := h.1.trans hblock.symm
  kept := by simp [Latex.kept, h.1, hempty]
  blank := by
    rw [hblank, List.all_eq_false]
    exact ⟨bsl, h.2, by decide⟩

end

/-! ## The pieces of a list of children -/

/-- The pieces that count of children that can be rendered. -/
theorem shapes_filter {cs : List Val} {ps : List (Bytes × Bool)}
    (h : List.Forall₂ Val.Shape cs ps) :
    List.Forall₂ Val.Shape (cs.filter (!·.isEmpty)) (ps.filter kept) :=
  List.rel_filter (fun _ _ hcp => Iff.of_eq (congrArg (· = true) hcp.kept.symm)) h

theorem any_shapes {cs : List Val} {ps : List (Bytes × Bool)} (h : List.Forall₂ Val.Shape cs ps) :
    ps.any (·.2) = cs.any Val.isBlock := by
  induction h with
  | nil => rfl
  | cons hcp _ ih => rw [List.any_cons, List.any_cons, hcp.block, ih]

theorem any_kept_shapes {cs : List Val} {ps : List (Bytes × Bool)}
    (h : List.Forall₂ Val.Shape cs ps) : ps.any kept = !cs.all Val.isEmpty := by
  induction h with
  | nil => rfl
  | cons hcp _ ih => rw [List.any_cons, List.all_cons, hcp.kept, ih, Bool.not_and]

theorem all_shapes {cs : List Val} {ps : List (Bytes × Bool)} (h : List.Forall₂ Val.Shape cs ps) :
    (ps.all fun p => p.1.all isSpace) = cs.all Val.isBlank := by
  induction h with
  | nil => rfl
  | cons hcp _ ih => rw [List.all_cons, List.all_cons, hcp.blank, ih]

/-- Something counts exactly if a piece does. -/
theorem kept_glued (bsep : Bytes) (ps : List (Bytes × Bool)) :
    kept (glued bsep ps, ps.any (·.2)) = ps.any kept := by
  rw [glued_eq_joinWith, ← any_filter_kept]
  cases hks : ps.filter kept with
  | nil =>
      have hnone : ps.any kept = false := by
        rw [List.any_eq_false]
        exact fun p hp => List.filter_eq_nil_iff.mp hks p hp
      rw [hnone]
      rfl
  | cons p ks =>
      obtain ⟨hmem, hp⟩ := List.mem_filter.mp (hks ▸ List.mem_cons_self : p ∈ ps.filter kept)
      rw [List.any_eq_true.mpr ⟨p, hmem, hp⟩]
      cases hblk : p.2 with
      | true => simp [kept, hblk]
      | false =>
          have hne : p.1 ≠ [] := by simpa [kept, hblk] using hp
          simp [kept, joinWith, hne]

/-- Blank separators leave it to the pieces whether anything else is written. -/
theorem all_glued {bsep : Bytes} (hsep : bsep.all isSpace = true) (ps : List (Bytes × Bool)) :
    (glued bsep ps).all isSpace = ps.all fun p => p.1.all isSpace := by
  have hseps : ∀ p q, (unlessGlued bothInline bsep p q).all isSpace = true := by
    intro p q
    unfold unlessGlued
    split
    · rfl
    · exact hsep
  rw [glued_eq_joinWith, all_joinWith hseps, List.all_filter]
  congr 1
  funext p
  cases hp : p.2 <;> cases hs : p.1 <;> simp [kept, hp, hs]

/-! ## Every value -/

theorem shape_text (s : Bytes) : (Val.str s).Shape (escape s, false) where
  block := rfl
  kept := by
    cases s with
    | nil => rfl
    | cons c s =>
        obtain ⟨b, r, hcons, -⟩ := escape_cons c s
        simp [kept, hcons, Val.isEmpty]
  blank := all_isSpace_escape s

theorem renderNode_shape :
    ∀ (n : Nat) (c : Val) (ctx : Ctx), c.depth ≤ n → Returns c.Shape (renderNode c ctx)
  | 0, c, _, h => absurd c.one_le_depth (by omega)
  | n + 1, c, ctx, h => by
      have hchildren : ∀ (cs : List Val) (who bsep : Bytes), Val.depthList cs ≤ n →
          bsep.all isSpace = true →
          Returns (fun r => r.2 = Val.anyBlock cs ∧ kept r = !Val.allEmpty cs ∧
            r.1.all isSpace = Val.allBlank cs) (renderChildren renderNode cs ctx who bsep) := by
        intro cs who bsep hcs hsep r hr
        obtain ⟨-, ps, hps, rfl⟩ := (renderChildren_eq_ok_iff renderNode).mp hr
        have hdepth : ∀ c ∈ Val.leavesList cs, c.depth ≤ n := fun c hc =>
          Nat.le_trans (Val.depth_leavesList cs c hc) hcs
        have hshapes : List.Forall₂ Val.Shape (Val.leavesList cs) ps :=
          ((List.forall₂_and_left _ _).mpr ⟨hdepth, hps⟩).imp fun c p hcp =>
            renderNode_shape n c ctx hcp.1 p hcp.2
        refine ⟨?_, ?_, ?_⟩
        · exact (any_shapes hshapes).trans (Val.any_leavesList cs)
        · rw [kept_glued, any_kept_shapes hshapes, Val.all_isEmpty_leavesList]
        · rw [all_glued hsep, all_shapes hshapes, Val.all_isBlank_leavesList]
      rw [renderNode_eq]
      cases c with
      | str s => exact returns_ok (shape_text s)
      | num k => exact returns_ok ⟨rfl, by cases hk : k.text <;> simp [kept, Val.isEmpty, hk], rfl⟩
      | nil => exact returns_error _
      | bool b => exact returns_error _
      | list t items => exact returns_error _
      | other tc => exact returns_error _
      | raw s block =>
          exact returns_ok ⟨rfl, by cases block <;> cases s <;> simp [kept, R.raw, Val.isEmpty], rfl⟩
      | m s => exact returns_ok ⟨rfl, by simp [kept, R.m, ascii, Val.isEmpty], by simp [R.m, ascii, Val.isBlank, isSpace]⟩
      | newcommand name definition nargs =>
          exact returns_ok (Solid.shape ⟨rfl, by simp [R.newcommand, ascii, bsl]⟩ rfl rfl rfl)
      | mathenv env star label lines =>
          exact returns_ok (Solid.shape ⟨rfl, List.mem_append_right _ (bsl_mem_endTag _)⟩ rfl rfl rfl)
      | verbatim s =>
          exact returns_ok (Solid.shape ⟨rfl, List.mem_append_right _ (bsl_mem_endTag _)⟩ rfl rfl rfl)
      | lstlisting code opts =>
          exact returns_ok (Solid.shape ⟨rfl, List.mem_append_right _ (bsl_mem_endTag _)⟩ rfl rfl rfl)
      | rule cmd => exact returns_ok ⟨rfl, by simp [kept, R.rule, Val.isEmpty], rfl⟩
      | frag cs =>
          rw [Val.depth] at h
          exact (hchildren cs _ _ (by omega) (by decide)).imp fun r hr => ⟨hr.1, hr.2.1, hr.2.2⟩
      | par cs =>
          rw [Val.depth] at h
          exact Returns.bind (hchildren cs _ _ (by omega) (by decide)) fun r hr =>
            returns_ok ⟨rfl, by simp [kept, Val.isEmpty], hr.2.2⟩
      | cmd name opts args =>
          exact .after fun s => returns_ok ⟨rfl, by simp [kept, ascii, Val.isEmpty],
            by simp [ascii, Val.isBlank, isSpace]⟩
      | env name opts args cs => exact (R.solid_env name opts args cs ctx).imp fun p hp => hp.shape rfl rfl rfl
      | item term cs => exact (R.solid_item term cs ctx).imp fun p hp => hp.shape rfl rfl rfl
      | sec cmd star short label title cs =>
          exact (R.solid_sec cmd star short label title cs ctx).imp fun p hp => hp.shape rfl rfl rfl
      | listenv env opts items => exact (R.solid_list env opts items ctx).imp fun p hp => hp.shape rfl rfl rfl
      | tabular t =>
          exact Returns.bind (bsl_mem_tabularLines t ctx) fun s hs =>
            returns_ok (Solid.shape ⟨rfl, hs⟩ rfl rfl rfl)
      | table t fl =>
          exact .after fun body => Returns.bind (bsl_mem_floatLines _ fl ctx _ _ _) fun s hs =>
            returns_ok (Solid.shape ⟨rfl, hs⟩ rfl rfl rfl)
      | figure fig fl =>
          exact Returns.bind (bsl_mem_floatLines _ fl ctx _ _ _) fun s hs =>
            returns_ok (Solid.shape ⟨rfl, hs⟩ rfl rfl rfl)
      | document d cs => exact (R.solid_document d cs ctx).imp fun p hp => hp.shape rfl rfl rfl

/-- The pieces of children that are rendered. -/
theorem shapes_of_render {cs : List Val} {ctx : Ctx} {ps : List (Bytes × Bool)}
    (h : List.Forall₂ (fun c p => renderNode c ctx = .ok p) cs ps) : List.Forall₂ Val.Shape cs ps :=
  h.imp fun c p hp => renderNode_shape c.depth c ctx le_rfl p hp

end Tmg.Latex
