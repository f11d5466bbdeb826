/-
# `Tmg.Latex.Children` — what `render_children` returns

`flatten` gives the leaves of the children, all plain lists opened, if no list has a hole
(`flatten_eq_ok_iff`).  Each leaf is rendered to a piece, a string with a flag, and the
loop writes the pieces down.  It looks one piece back, and decides on a separator from the
two flags; over the whole list that comes to

    the pieces that are kept            blocks, and inline pieces that are not empty
    cut into maximal runs               of inline pieces; a block is a run of its own
    each run glued, `bsep` between runs

which is `glued`, and `renderChildren_eq` is the equation.  For proofs about two lists of
children there is the same string piece by piece (`glued_eq_joinWith`).  What `inline` and
the lines of `R.list` make of their children is read off it (`inlineVal_eq_ok_iff`,
`itemLines_eq_ok_iff`).
-/
import Tmg.Latex.Render
import Tmg.Lib.Join
import Tmg.Lib.Outcome

namespace Tmg.Latex

open Tmg Lib

/-! ## The leaves of the children -/

namespace Val

mutual

/-- A child, if it is a list the leaves of its own children. -/
def leaves : Val → List Val
  | list _ items => leavesList items
  | nil => []
  | c => [c]

def leavesList : List Val → List Val
  | [] => []
  | c :: cs => leaves c ++ leavesList cs

end

mutual

/-- No list has a hole: what is nil has nothing but nil behind it. -/
def full : Val → Bool
  | list _ items => fullList items
  | _ => true

def fullList : List Val → Bool
  | [] => true
  | c :: cs => if c.isNil then allNil cs else full c && fullList cs

end

theorem leavesList_of_allNil : ∀ {cs : List Val}, allNil cs = true → leavesList cs = []
  | [], _ => rfl
  | c :: cs, h => by
      rw [allNil, List.all_cons, Bool.and_eq_true] at h
      have hc : leaves c = [] := by
        cases c with
        | nil => rfl
        | _ => simp [isNil] at h
      rw [leavesList, hc, leavesList_of_allNil h.2]
      rfl

theorem fullList_append_cons {c : Val} (hc : c.isNil = false) (bs : List Val) :
    ∀ as : List Val, fullList (as ++ c :: bs)
      = ((as.all fun a => !a.isNil && a.full) && (c.full && fullList bs))
  | [] => by simp [fullList, hc]
  | a :: as => by
      have ih := fullList_append_cons hc bs as
      rw [List.cons_append, fullList, List.all_cons, ih]
      cases ha : a.isNil with
      | true =>
          have hnot : allNil (as ++ c :: bs) = false := by simp [allNil, hc]
          rw [if_pos rfl, hnot]
          rfl
      | false =>
          rw [if_neg Bool.false_ne_true]
          cases a.full <;> rfl

theorem leavesList_append (bs : List Val) :
    ∀ as : List Val, leavesList (as ++ bs) = leavesList as ++ leavesList bs
  | [] => rfl
  | a :: as => by
      rw [List.cons_append, leavesList, leavesList, leavesList_append bs as, List.append_assoc]

/-- What stands behind the last value does not count. -/
theorem leavesList_trim : ∀ cs : List Val, leavesList (trim cs) = leavesList cs
  | [] => rfl
  | c :: cs => by
      rw [trim]
      split
      · next h => exact (leavesList_of_allNil h).symm
      · rw [leavesList, leavesList, leavesList_trim cs]

theorem fullList_trim : ∀ {cs : List Val}, fullList cs = true → fullList (trim cs) = true
  | [], _ => rfl
  | c :: cs, h => by
      rw [trim]
      split
      · rfl
      · next hall =>
          rw [fullList] at h ⊢
          cases hc : c.isNil with
          | true =>
              rw [hc, if_pos rfl] at h
              exact absurd (by rw [allNil, List.all_cons, hc]; exact h) hall
          | false =>
              rw [hc, if_neg Bool.false_ne_true, Bool.and_eq_true] at h
              rw [if_neg Bool.false_ne_true, h.1, fullList_trim h.2]
              rfl

end Val

mutual

theorem flattenOne_spec (who : Bytes) (c : Val) (hnil : c.isNil = false) :
    if c.full then flattenOne who c = .ok c.leaves else ∃ i, flattenOne who c = .error (.childNil who i) := by
  cases c with
  | list t items => exact flattenFrom_spec who items 1
  | nil => simp [Val.isNil] at hnil
  | _ => rfl

theorem flattenFrom_spec (who : Bytes) :
    ∀ (cs : List Val) (i : Nat),
      if Val.fullList cs then flattenFrom who i cs = .ok (Val.leavesList cs)
      else ∃ k, flattenFrom who i cs = .error (.childNil who k)
  | [], _ => rfl
  | c :: cs, i => by
      rw [flattenFrom, Val.fullList]
      by_cases hnil : c.isNil = true
      · rw [if_pos hnil, if_pos hnil]
        split
        · next h =>
            have hall : Val.allNil (c :: cs) = true := by
              rw [Val.allNil, List.all_cons, hnil]
              exact h
            rw [Val.leavesList_of_allNil hall]
        · exact ⟨i, rfl⟩
      · rw [if_neg hnil, if_neg hnil]
        have hc := flattenOne_spec who c (by simpa using hnil)
        have hcs := flattenFrom_spec who cs (i + 1)
        cases hfc : c.full with
        | false =>
            rw [hfc] at hc
            obtain ⟨k, hk⟩ := hc
            exact ⟨k, by rw [hk]; rfl⟩
        | true =>
            rw [hfc] at hc
            cases hfcs : Val.fullList cs with
            | false =>
                rw [hfcs] at hcs
                obtain ⟨k, hk⟩ := hcs
                exact ⟨k, by rw [hc, hk]; rfl⟩
            | true =>
                rw [hfcs] at hcs
                simp only [if_true] at hc hcs
                rw [hc, hcs]
                rfl

end

/-- `flatten` gives the leaves, unless a list has a hole. -/
theorem flatten_eq_ok_iff (who : Bytes) (cs items : List Val) :
    flatten who cs = .ok items ↔ Val.fullList cs = true ∧ items = Val.leavesList cs := by
  have h := flattenFrom_spec who cs 1
  cases hfull : Val.fullList cs with
  | true =>
      rw [hfull, if_pos rfl] at h
      rw [flatten, h]
      simp [eq_comm]
  | false =>
      rw [hfull, if_neg Bool.false_ne_true] at h
      obtain ⟨k, hk⟩ := h
      rw [flatten, hk]
      simp

theorem flatten_of_full (who : Bytes) {cs : List Val} (h : Val.fullList cs = true) :
    flatten who cs = .ok (Val.leavesList cs) :=
  (flatten_eq_ok_iff who cs _).mpr ⟨h, rfl⟩

/-- A hole is an error. -/
theorem flatten_of_hole (who : Bytes) (cs : List Val) (h : Val.fullList cs = false) :
    ∃ i, flatten who cs = .error (.childNil who i) := by
  have hspec := flattenFrom_spec who cs 1
  rwa [h, if_neg Bool.false_ne_true] at hspec

/-! ## The pieces -/

/-- A piece counts if it is a block or not empty. -/
def kept (p : Bytes × Bool) : Bool := p.2 || p.1 ≠ []

/-- Two inline pieces. -/
def bothInline (p q : Bytes × Bool) : Bool := !p.2 && !q.2

/-- The pieces that count, runs of inline pieces glued, `bsep` between runs and blocks. -/
def glued (bsep : Bytes) (pieces : List (Bytes × Bool)) : Bytes :=
  bsep.intercalate (((pieces.filter kept).splitBy bothInline).map (·.flatMap (·.1)))

/-- The pieces that count, with `bsep` between two of which one is a block. -/
theorem glued_eq_joinWith (bsep : Bytes) (pieces : List (Bytes × Bool)) :
    glued bsep pieces = joinWith (·.1) (unlessGlued bothInline bsep) (pieces.filter kept) :=
  (joinWith_glue _).symm

/-- The state of the loop behind the pieces `ps`, all of them kept. -/
structure Glue.Behind (bsep : Bytes) (g : Glue) (ps : List (Bytes × Bool)) : Prop where
  out : g.out.flatten = joinWith (·.1) (unlessGlued bothInline bsep) ps
  empty : g.out = [] ↔ ps = []
  prevBlock : ∀ p ∈ ps.getLast?, g.prevBlock = p.2
  anyBlock : g.anyBlock = ps.any (·.2)

/-- One turn of the loop. -/
theorem Glue.Behind.push {bsep : Bytes} {g : Glue} {ps : List (Bytes × Bool)}
    (h : g.Behind bsep ps) (p : Bytes × Bool) :
    (g.push bsep p.1 p.2).Behind bsep (ps ++ [p].filter kept) := by
  obtain ⟨s, blk⟩ := p
  by_cases hk : blk = true ∨ s ≠ []
  · have hkept : [(s, blk)].filter kept = [(s, blk)] := by simpa [kept] using hk
    rw [Glue.push, if_pos hk, hkept]
    refine ⟨?_, by simp, by simp, by simp [h.anyBlock]⟩
    cases ps with
    | nil =>
        have hout : g.out = [] := h.empty.mpr rfl
        simp [hout, joinWith, joinAfter]
    | cons q qs =>
        have hout : g.out.length > 0 :=
          List.length_pos_of_ne_nil fun hnil => List.cons_ne_nil _ _ (h.empty.mp hnil)
        have hprev : g.prevBlock = (qs.getLastD q).2 := by
          refine h.prevBlock _ ?_
          rw [List.getLast?_cons, List.getLastD_eq_getLast?]
          exact rfl
        rw [joinWith_concat, ← h.out, hprev]
        generalize qs.getLastD q = l
        cases blk <;> cases hl : l.2 <;> simp [hout, unlessGlued, bothInline, hl]
  · have hkept : [(s, blk)].filter kept = [] := by simpa [kept] using hk
    rw [Glue.push, if_neg hk, hkept, List.append_nil]
    exact h

theorem Glue.Behind.foldl {bsep : Bytes} :
    ∀ (pieces : List (Bytes × Bool)) {g : Glue} {ps : List (Bytes × Bool)}, g.Behind bsep ps →
      (pieces.foldl (fun g p => g.push bsep p.1 p.2) g).Behind bsep (ps ++ pieces.filter kept)
  | [], g, ps, h => by rwa [List.filter_nil, List.append_nil]
  | p :: pieces, g, ps, h => by
      have ih := Glue.Behind.foldl pieces (h.push p)
      rw [List.append_assoc, ← List.filter_append] at ih
      exact ih

/-- The flag of what does not count is false. -/
theorem any_filter_kept (pieces : List (Bytes × Bool)) :
    (pieces.filter kept).any (·.2) = pieces.any (·.2) := by
  rw [List.any_filter]
  congr 1
  funext p
  cases hp : p.2 <;> simp [kept, hp]

/-- What does not count is empty. -/
theorem flatMap_filter_kept :
    ∀ ps : List (Bytes × Bool), (ps.filter kept).flatMap (·.1) = ps.flatMap (·.1)
  | [] => rfl
  | p :: ps => by
      have ih := flatMap_filter_kept ps
      cases hp : kept p with
      | true => rw [List.filter_cons_of_pos hp, List.flatMap_cons, List.flatMap_cons, ih]
      | false =>
          have hnil : p.1 = [] := by
            rw [kept, Bool.or_eq_false_iff] at hp
            simpa using hp.2
          rw [List.filter_cons_of_neg (by simp [hp]), List.flatMap_cons, hnil, ih]
          rfl

/-- Inline pieces are glued. -/
theorem glued_of_inline (bsep : Bytes) {ps : List (Bytes × Bool)} (h : ps.any (·.2) = false) :
    glued bsep ps = ps.flatMap (·.1) := by
  have hinline : ∀ p ∈ ps.filter kept, p.2 = false := fun p hp => by
    simpa using List.any_eq_false.mp h p (List.mem_of_mem_filter hp)
  have hchain : (ps.filter kept).IsChain fun p q => unlessGlued bothInline bsep p q = [] := by
    refine List.Pairwise.isChain (List.pairwise_of_forall_mem_list fun p hp q hq => ?_)
    rw [unlessGlued, bothInline, hinline p hp, hinline q hq]
    rfl
  rw [glued_eq_joinWith, joinWith_chain _ hchain, flatMap_filter_kept]

/-! ## `render_children` -/

section

variable (one : Val → Ctx → Except LatexError (Bytes × Bool))

/-- The loop renders all children before it is done. -/
theorem renderItems_eq (ctx : Ctx) (bsep : Bytes) :
    ∀ (cs : List Val) (g : Glue), renderItems one ctx bsep cs g
      = (cs.mapM (one · ctx)).map fun pieces => pieces.foldl (fun g p => g.push bsep p.1 p.2) g
  | [], g => rfl
  | c :: cs, g => by
      rw [renderItems, List.mapM_cons]
      cases hc : one c ctx with
      | error e => rfl
      | ok p =>
          have ih := renderItems_eq ctx bsep cs (g.push bsep p.1 p.2)
          cases hcs : cs.mapM (one · ctx) with
          | error e =>
              rw [hcs] at ih
              exact ih
          | ok pieces =>
              rw [hcs] at ih
              exact ih

/-- `render_children`, piece by piece. -/
theorem renderChildren_glued (cs : List Val) (ctx : Ctx) (who bsep : Bytes) :
    renderChildren one cs ctx who bsep = (do
      let items ← flatten who cs
      let pieces ← items.mapM (one · ctx)
      return (glued bsep pieces, pieces.any (·.2))) := by
  rw [renderChildren]
  cases hflat : flatten who cs with
  | error e => rfl
  | ok items =>
      have hstart : Glue.Behind bsep ⟨[], false, false⟩ [] := ⟨rfl, by simp, by simp, rfl⟩
      change (renderItems one ctx bsep items ⟨[], false, false⟩ >>= _)
        = (items.mapM (one · ctx) >>= _)
      rw [renderItems_eq]
      cases items.mapM (one · ctx) with
      | error e => rfl
      | ok pieces =>
          have hend := Glue.Behind.foldl pieces hstart
          rw [List.nil_append] at hend
          refine congrArg Except.ok (Prod.ext ?_ ?_)
          · exact (tableConcat_nil _).trans (hend.out.trans (glued_eq_joinWith bsep pieces).symm)
          · exact hend.anyBlock.trans (any_filter_kept pieces)

/-- What `render_children` returns when it does. -/
theorem renderChildren_eq_ok_iff {cs : List Val} {ctx : Ctx} {who bsep : Bytes}
    {r : Bytes × Bool} :
    renderChildren one cs ctx who bsep = .ok r ↔ Val.fullList cs = true ∧ ∃ pieces,
      List.Forall₂ (fun c p => one c ctx = .ok p) (Val.leavesList cs) pieces ∧
        r = (glued bsep pieces, pieces.any (·.2)) := by
  rw [renderChildren_glued]
  cases hfull : Val.fullList cs with
  | false =>
      obtain ⟨i, hi⟩ := flatten_of_hole who _ hfull
      rw [hi]
      exact iff_of_false nofun fun h => Bool.false_ne_true h.1
  | true =>
      rw [flatten_of_full who hfull]
      change ((Val.leavesList cs).mapM (one · ctx) >>= _) = _ ↔ _
      simp only [← mapM_eq_ok_iff, true_and]
      cases (Val.leavesList cs).mapM (one · ctx) with
      | error e => exact iff_of_false nofun nofun
      | ok pieces =>
          constructor
          · exact fun h => ⟨pieces, rfl, (Except.ok.inj h).symm⟩
          · rintro ⟨_, hp, rfl⟩
            rw [Except.ok.inj hp]
            rfl

theorem fullList_singleton (x : Val) : Val.fullList [x] = x.full := by
  cases x <;> simp [Val.fullList, Val.full, Val.isNil, Val.allNil]

theorem leavesList_singleton (x : Val) : Val.leavesList [x] = x.leaves :=
  List.append_nil _

/-- What `inline` returns when it does. -/
theorem inlineVal_eq_ok_iff {x : Val} {ctx : Ctx} {who s : Bytes} :
    inlineVal one x ctx who = .ok s ↔ x.full = true ∧ ∃ pieces,
      List.Forall₂ (fun c p => one c ctx = .ok p) x.leaves pieces ∧ s = glued parSep pieces := by
  have hone : inlineVal one x ctx who
      = renderChildren one [x] ctx who parSep >>= fun r => .ok r.1 := rfl
  rw [hone, bind_eq_ok_iff]
  simp only [renderChildren_eq_ok_iff, fullList_singleton, leavesList_singleton]
  constructor
  · rintro ⟨_, ⟨hfull, pieces, hp, rfl⟩, hs⟩
    exact ⟨hfull, pieces, hp, (Except.ok.inj hs).symm⟩
  · rintro ⟨hfull, pieces, hp, rfl⟩
    exact ⟨_, ⟨hfull, pieces, hp, rfl⟩, rfl⟩

/-- The line of an item, with its term rendered in one context and its parts in another. -/
def ItemLine (p1 : Bytes) (tctx ictx : Ctx) (who : Bytes) (it : Item) (l : Bytes) : Prop :=
  ∃ t body, termArg one tctx who it.term = .ok t ∧
    renderChildren one it.parts ictx who (ascii "\n") = .ok body ∧
      l = itemLine p1 t (stripLeft body.1)

/-- The lines of the items are written one by one. -/
theorem itemLines_eq_ok_iff (name p1 : Bytes) (ctx ictx : Ctx) :
    ∀ (items : List Item) (ls : List Bytes), R.itemLines one name p1 ctx ictx items = .ok ls ↔
      List.Forall₂ (ItemLine one p1 ctx ictx name) items ls
  | [], ls => by
      rw [List.forall₂_nil_left_iff, R.itemLines]
      exact ⟨fun h => (Except.ok.inj h).symm, fun h => by rw [h]⟩
  | it :: items, ls => by
      rw [List.forall₂_cons_left_iff, R.itemLines, bind_eq_ok_iff]
      simp only [bind_eq_ok_iff, itemLines_eq_ok_iff name p1 ctx ictx items]
      constructor
      · rintro ⟨t, ht, body, hbody, rest, hrest, hls⟩
        exact ⟨_, rest, ⟨t, body, ht, hbody, rfl⟩, hrest, (Except.ok.inj hls).symm⟩
      · rintro ⟨l, rest, ⟨t, body, ht, hbody, rfl⟩, hrest, rfl⟩
        exact ⟨t, ht, body, hbody, rest, hrest, rfl⟩

/-- **`render_children`**: the children with all plain lists opened, unless one has a hole;
their pieces in order, without the empty inline ones, runs of inline pieces glued and one
`bsep` between a block and each of its neighbours; and whether there was a block. -/
theorem renderChildren_eq (cs : List Val) (ctx : Ctx) (who bsep : Bytes) :
    renderChildren one cs ctx who bsep = (do
      let items ← flatten who cs
      let pieces ← items.mapM (one · ctx)
      return (glued bsep pieces, pieces.any (·.2))) ∧
    ∀ items, flatten who cs = .ok items ↔ Val.fullList cs = true ∧ items = Val.leavesList cs :=
  ⟨renderChildren_glued one cs ctx who bsep, flatten_eq_ok_iff who cs⟩

end

end Tmg.Latex
