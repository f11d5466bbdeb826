/-
# `Tmg.Latex.ControlWord` — the name of a command, and the text behind it

TeX reads the name of a command to the last letter there is.  `R.cmd` writes the backslash
and the name, `render_children` glues the next inline piece to it, and nothing ends the
name:

    L.frag(L.cmd("alpha"), "x")      \alphax        the command \alphax
    L.frag(L.cmd("alpha"), " x")     \alpha x
    L.frag("~", "x")                 \textasciitilde{}x

The last is how `escape` ends the words it writes.  Lists and fragments make no
difference (`opened`): the name is read back exactly where the first byte that follows it
is no letter, and that byte is the first of the text, or of what stands behind an empty
text (`controlWord_iff`).
-/
import Tmg.Latex.Shape

namespace Tmg.Latex

open Tmg Lib

/-- The control word at the head of a string, without the backslash. -/
def controlWord : Bytes → Option Bytes
  | c :: s => if c = bsl then some (s.takeWhile isLetter) else none
  | [] => none

/-! ## Lists and fragments opened -/

namespace Val

mutual

/-- The values an inline child is made of. -/
def opened : Val → List Val
  | list _ items => openedList items
  | frag cs => openedList cs
  | nil => []
  | c => [c]

def openedList : List Val → List Val
  | [] => []
  | c :: cs => opened c ++ openedList cs

end

mutual

theorem opened_leaves (c : Val) : c.leaves.flatMap opened = c.opened := by
  cases c with
  | list t items => exact opened_leavesList items
  | nil => rfl
  | _ => exact List.append_nil _

theorem opened_leavesList : ∀ cs : List Val, (leavesList cs).flatMap opened = openedList cs
  | [] => rfl
  | c :: cs => by
      rw [leavesList, List.flatMap_append, opened_leaves c, opened_leavesList cs, openedList]

end

/-- A value that an inline sequence is made of. -/
inductive Inline : Val → Prop
  | bool (b : Bool) : Inline (.bool b)
  | other (tc : Bytes) : Inline (.other tc)
  | num (n : LuaNum) : Inline (.num n)
  | str (s : Bytes) : Inline (.str s)
  | raw (s : Bytes) : Inline (.raw s false)
  | m (s : Bytes) : Inline (.m s)
  | cmd (name : Bytes) (opts : Opts) (args : List Val) : Inline (.cmd name opts args)

mutual

theorem inline_opened (c : Val) (h : c.isBlock = false) : ∀ d ∈ c.opened, d.Inline := by
  cases c with
  | list t items => exact inline_openedList items h
  | frag cs => exact inline_openedList cs h
  | nil => exact nofun
  | bool b => exact List.forall_mem_singleton.mpr (.bool b)
  | other tc => exact List.forall_mem_singleton.mpr (.other tc)
  | num n => exact List.forall_mem_singleton.mpr (.num n)
  | str s => exact List.forall_mem_singleton.mpr (.str s)
  | raw s b =>
      have hb : b = false := h
      rw [hb]
      exact List.forall_mem_singleton.mpr (.raw s)
  | m s => exact List.forall_mem_singleton.mpr (.m s)
  | cmd name opts args => exact List.forall_mem_singleton.mpr (.cmd name opts args)
  | _ => exact absurd h.symm Bool.false_ne_true

theorem inline_openedList :
    ∀ cs : List Val, anyBlock cs = false → ∀ d ∈ openedList cs, d.Inline
  | [], _ => nofun
  | c :: cs, h => by
      rw [anyBlock, Bool.or_eq_false_iff] at h
      exact List.forall_mem_append.mpr ⟨inline_opened c h.1, inline_openedList cs h.2⟩

end

/-- What is written first for an inline value, text before it is escaped. -/
def ink : Val → Bytes
  | str s => s
  | num n => n.text
  | raw s _ => s
  | m _ => ascii "$"
  | cmd .. => [bsl]
  | _ => []

end Val

/-- The first byte written for the children is a letter. -/
def startsWithLetter (cs : List Val) : Bool := (cs.flatMap Val.ink).head?.any isLetter

/-- Children without a block are written as what they are made of is, in order. -/
theorem flatMap_opened :
    ∀ (n : Nat) (cs : List Val) (ctx : Ctx) (ps : List (Bytes × Bool)), (∀ c ∈ cs, c.depth ≤ n) →
      List.Forall₂ (fun c p => renderNode c ctx = .ok p) cs ps → cs.any Val.isBlock = false →
        ∃ qs, List.Forall₂ (fun c q => renderNode c ctx = .ok q) (cs.flatMap Val.opened) qs ∧
          ps.flatMap (·.1) = qs.flatMap (·.1)
  | _, [], _, _, _, .nil, _ => ⟨[], .nil, rfl⟩
  | 0, c :: _, _, _, hn, _, _ => absurd (hn c List.mem_cons_self) (by have := c.one_le_depth; omega)
  | n + 1, c :: cs, ctx, p :: ps, hn, .cons hp hps, hblock => by
      rw [List.any_cons, Bool.or_eq_false_iff] at hblock
      rw [List.forall_mem_cons] at hn
      obtain ⟨qs, hqs, htext⟩ := flatMap_opened (n + 1) cs ctx ps hn.2 hps hblock.2
      -- a fragment is opened, anything else is a piece by itself
      have hone : ∃ q, List.Forall₂ (fun c q => renderNode c ctx = .ok q) c.opened q ∧
          p.1 = q.flatMap (·.1) := by
        cases c with
        | frag ds =>
            rw [renderNode_eq] at hp
            obtain ⟨-, pieces, hpieces, rfl⟩ := (renderChildren_eq_ok_iff renderNode).mp hp
            have hnone : (Val.leavesList ds).any Val.isBlock = false :=
              (Val.any_leavesList ds).trans hblock.1
            have hdepth : ∀ d ∈ Val.leavesList ds, d.depth ≤ n := fun d hd =>
              Nat.le_trans (Val.depth_leavesList ds d hd) (Nat.le_of_succ_le_succ hn.1)
            obtain ⟨q, hq, hpq⟩ := flatMap_opened n _ ctx pieces hdepth hpieces hnone
            rw [Val.opened_leavesList] at hq
            refine ⟨q, hq, ?_⟩
            rw [← hpq]
            exact glued_of_inline parSep ((any_shapes (shapes_of_render hpieces)).trans hnone)
        | list t items =>
            rw [renderNode_eq] at hp
            exact nomatch hp
        | nil =>
            rw [renderNode_eq] at hp
            exact nomatch hp
        | _ => exact ⟨[p], .cons hp .nil, (List.append_nil _).symm⟩
      obtain ⟨q, hq, hpq⟩ := hone
      refine ⟨q ++ qs, ?_, ?_⟩
      · rw [List.flatMap_cons]
        exact List.rel_append hq hqs
      · rw [List.flatMap_cons, List.flatMap_append, htext, hpq]

/-- An inline sequence is written as what it is made of is, in order. -/
theorem render_inline {cs : List Val} {ctx : Ctx} {who bsep : Bytes} {r : Bytes × Bool}
    (hinline : Val.anyBlock cs = false)
    (h : renderChildren renderNode cs ctx who bsep = .ok r) :
    ∃ ps, List.Forall₂ (fun c p => renderNode c ctx = .ok p) (Val.openedList cs) ps ∧
      r.1 = ps.flatMap (·.1) := by
  obtain ⟨-, pieces, hpieces, rfl⟩ := (renderChildren_eq_ok_iff renderNode).mp h
  have hnone : (Val.leavesList cs).any Val.isBlock = false := (Val.any_leavesList cs).trans hinline
  obtain ⟨ps, hps, htext⟩ := flatMap_opened (Val.depthList cs) _ ctx pieces
    (Val.depth_leavesList cs) hpieces hnone
  rw [Val.opened_leavesList] at hps
  refine ⟨ps, hps, ?_⟩
  rw [← htext]
  exact glued_of_inline bsep ((any_shapes (shapes_of_render hpieces)).trans hnone)

/-! ## The first byte -/

theorem esc?_head (c : Byte) :
    ∃ b t, (esc? c).getD [c] = b :: t ∧ isLetter b = isLetter c := by
  have hsym : ∀ a ∈ ascii "&%$#_\x7b\x7d", isLetter a = false := by decide
  unfold esc?
  split
  · next h => exact ⟨_, _, rfl, by rw [h]; rfl⟩
  · split
    · next h => exact ⟨bsl, [c], rfl, (hsym c h).symm⟩
    · split
      · next h => exact ⟨_, _, rfl, by rw [h]; rfl⟩
      · split
        · next h => exact ⟨_, _, rfl, by rw [h]; rfl⟩
        · exact ⟨c, [], rfl, rfl⟩

/-- Two strings begin with a letter, or not, or are empty. -/
def SameStart (s t : Bytes) : Prop :=
  s.head?.any isLetter = t.head?.any isLetter ∧ (s = [] ↔ t = [])

theorem SameStart.append {s t s' t' : Bytes} (h : SameStart s t) (h' : SameStart s' t') :
    SameStart (s ++ s') (t ++ t') := by
  obtain ⟨hhead, hnil⟩ := h
  cases s with
  | nil =>
      rw [hnil.mp rfl]
      exact h'
  | cons b s =>
      cases t with
      | nil => exact absurd (hnil.mpr rfl) (List.cons_ne_nil _ _)
      | cons c t => exact ⟨hhead, iff_of_false nofun nofun⟩

/-- `escape` writes a letter first only for a letter. -/
theorem sameStart_escape (s : Bytes) : SameStart (escape s) s := by
  cases s with
  | nil => exact ⟨rfl, Iff.rfl⟩
  | cons c s =>
      obtain ⟨b, t, hbt, hb⟩ := esc?_head c
      have hesc : escape (c :: s) = b :: (t ++ escape s) := by
        rw [escape, List.flatMap_cons, hbt]
        rfl
      rw [hesc]
      exact ⟨hb, iff_of_false (List.cons_ne_nil _ _) (List.cons_ne_nil _ _)⟩

/-- A piece begins as its value says. -/
theorem sameStart_piece {c : Val} (hc : c.Inline) {ctx : Ctx} {p : Bytes × Bool}
    (h : renderNode c ctx = .ok p) : SameStart p.1 c.ink := by
  rw [renderNode_eq] at h
  cases hc with
  | bool b => exact nomatch h
  | other tc => exact nomatch h
  | num n =>
      rw [← Except.ok.inj h]
      exact ⟨rfl, Iff.rfl⟩
  | str s =>
      rw [← Except.ok.inj h]
      exact sameStart_escape s
  | raw s =>
      rw [← Except.ok.inj h]
      exact ⟨rfl, Iff.rfl⟩
  | m s =>
      rw [← Except.ok.inj h]
      exact ⟨rfl, iff_of_false nofun nofun⟩
  | cmd name opts args =>
      obtain ⟨a, -, ha⟩ := bind_eq_ok_iff.mp h
      rw [← Except.ok.inj ha]
      exact ⟨rfl, iff_of_false nofun nofun⟩

theorem Val.Inline.leaf {c : Val} (hc : c.Inline) :
    c.leaves = [c] ∧ c.full = true ∧ c.isNil = false ∧ c.isBlock = false := by
  cases hc <;> exact ⟨rfl, rfl, rfl, rfl⟩

theorem leaves_of_inline :
    ∀ {cs : List Val}, (∀ c ∈ cs, c.Inline) →
      Val.leavesList cs = cs ∧ Val.fullList cs = true ∧ cs.any Val.isBlock = false
  | [], _ => ⟨rfl, rfl, rfl⟩
  | c :: cs, h => by
      rw [List.forall_mem_cons] at h
      obtain ⟨hleaves, hfull, hnil, hblock⟩ := h.1.leaf
      obtain ⟨ihleaves, ihfull, ihblock⟩ := leaves_of_inline h.2
      rw [Val.leavesList, Val.fullList, List.any_cons, hleaves, hfull, hnil, hblock, ihleaves,
        ihfull, ihblock]
      exact ⟨rfl, rfl, rfl⟩

theorem sameStart_pieces {ctx : Ctx} :
    ∀ {cs : List Val} {ps : List (Bytes × Bool)}, (∀ c ∈ cs, c.Inline) →
      List.Forall₂ (fun c p => renderNode c ctx = .ok p) cs ps →
        SameStart (ps.flatMap (·.1)) (cs.flatMap Val.ink)
  | [], _, _, .nil => ⟨rfl, Iff.rfl⟩
  | c :: cs, p :: ps, hcs, .cons hp hps => by
      rw [List.forall_mem_cons] at hcs
      rw [List.flatMap_cons, List.flatMap_cons]
      exact (sameStart_piece hcs.1 hp).append (sameStart_pieces hcs.2 hps)

/-! ## The name read back -/

/-- A word ends where the letters end. -/
theorem takeWhile_word_iff {name : Bytes} (hname : ∀ b ∈ name, isLetter b = true) (rest : Bytes) :
    (name ++ rest).takeWhile isLetter = name ↔ rest.head?.any isLetter = false := by
  rw [List.takeWhile_append_of_pos hname, List.append_right_eq_self]
  cases rest with
  | nil => exact iff_of_true rfl rfl
  | cons b rest => cases hb : isLetter b <;> simp [hb]

/-- **The control word behind the backslash of a command is its name** exactly where no
letter follows: neither at the head of the text, nor, behind an empty text, at the head of
what stands there. -/
theorem controlWord_iff {cs pre post : List Val} {name t : Bytes}
    (hname : ∀ b ∈ name, isLetter b = true) (hinline : Val.anyBlock cs = false)
    (hseq : Val.openedList cs = pre ++ .cmd name .none [] :: .str t :: post) {ctx : Ctx}
    {who bsep : Bytes} {r : Bytes × Bool}
    (h : renderChildren renderNode cs ctx who bsep = .ok r) :
    ∃ before after, renderChildren renderNode pre ctx who bsep = .ok (before, false) ∧
      r.1 = before ++ after ∧
        (controlWord after = some name ↔ startsWithLetter (.str t :: post) = false) := by
  obtain ⟨ps, hps, hr⟩ := render_inline hinline h
  have hall := Val.inline_openedList cs hinline
  rw [hseq] at hps hall
  obtain ⟨as, rest, has, hrest, rfl⟩ := forall₂_append_left hps
  rw [List.forall_mem_append, List.forall_mem_cons] at hall
  obtain ⟨hpre, -, hpost⟩ := hall
  obtain ⟨p, bs, hp, hbs, rfl⟩ := List.forall₂_cons_left_iff.mp hrest
  obtain ⟨hleaves, hfull, hblock⟩ := leaves_of_inline hpre
  refine ⟨as.flatMap (·.1), bsl :: (name ++ bs.flatMap (·.1)), ?_, ?_, ?_⟩
  · rw [renderChildren_eq_ok_iff, hleaves]
    have hinline := (any_shapes (shapes_of_render has)).trans hblock
    exact ⟨hfull, as, has, Prod.ext (glued_of_inline bsep hinline).symm hinline.symm⟩
  · have hcmd : p.1 = bsl :: name := by
      rw [renderNode_eq] at hp
      rw [← Except.ok.inj hp]
      simp [ascii, bsl, fmtOpts]
    rw [hr, List.flatMap_append, List.flatMap_cons, hcmd]
    rfl
  · have hstart := (sameStart_pieces hpost hbs).1
    rw [controlWord, if_pos rfl, Option.some_inj, takeWhile_word_iff hname, hstart]
    rfl

/-- In front of a space it is. -/
theorem controlWord_alpha_space :
    ∃ before after, renderChildren renderNode [] ⟨true, 0⟩ (ascii "frag") parSep = .ok (before, false) ∧
      ascii "\\alpha x" = before ++ after ∧
        (controlWord after = some (ascii "alpha") ↔ startsWithLetter [.str (ascii " x")] = false) :=
  controlWord_iff (by decide) (by decide)
    (by rfl : Val.openedList [.cmd (ascii "alpha") .none [], .str (ascii " x")]
      = [] ++ .cmd (ascii "alpha") .none [] :: .str (ascii " x") :: [])
    (by decide : _ = Except.ok (ascii "\\alpha x", false))

/-- In front of a letter it is not. -/
theorem controlWord_alphax :
    render (.frag [.cmd (ascii "alpha") .none [], .str (ascii "x")]) true = .ok (ascii "\\alphax") ∧
      controlWord (ascii "\\alphax") = some (ascii "alphax") := by
  decide

end Tmg.Latex
