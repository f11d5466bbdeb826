/-
# `Tmg.Lib.Collapse` — runs written as one entry

`collapse p a l` is the list `l` with every maximal run of entries that meet `p` replaced
by the one entry `a`.  If `a` meets `p`, this is a normal form:

| | |
| :-- | :-- |
| `collapse_apart` | the result has no two neighbours that meet `p` |
| `collapse_eq_self_iff` | a list is its own collapse exactly when it is such a list, with `a` for every entry that meets `p` |
| `apart_intercalate_iff` | lists put together with `a` between them are such a list exactly when each is, and none meets `p` where it is joined |

The last line is what a function that collapses its arguments one by one and then joins
them has to answer for.
-/
import Tmg.Lib.Join
import Mathlib.Data.List.Chain

namespace Tmg.Lib

variable {α : Type*} (p : α → Prop) [DecidablePred p] (a : α)

/-- The collapse of what follows; `inRun` after an entry that meets `p`. -/
def collapseFrom : Bool → List α → List α
  | _, [] => []
  | inRun, x :: l =>
      if p x then (if inRun then collapseFrom true l else a :: collapseFrom true l)
      else x :: collapseFrom false l

/-- Every maximal run of entries that meet `p`, replaced by `a`. -/
def collapse (l : List α) : List α := collapseFrom p a false l

variable {p a}

/-- No two neighbours meet `p`. -/
def Apart (p : α → Prop) (l : List α) : Prop := l.IsChain fun x y => ¬ (p x ∧ p y)

/-- Inside a run, the rest of it is passed over. -/
theorem collapseFrom_true (l : List α) :
    collapseFrom p a true l = collapse p a (l.dropWhile fun x => decide (p x)) := by
  induction l with
  | nil => rfl
  | cons x l ih =>
      by_cases hx : p x
      · rw [collapseFrom, if_pos hx, if_pos rfl, ih, List.dropWhile_cons_of_pos (by simpa using hx)]
      · rw [collapseFrom, if_neg hx, List.dropWhile_cons_of_neg (by simpa using hx), collapse,
          collapseFrom, if_neg hx]

theorem collapse_cons_pos {x : α} (hx : p x) (l : List α) :
    collapse p a (x :: l) = a :: collapse p a (l.dropWhile fun x => decide (p x)) := by
  rw [collapse, collapseFrom, if_pos hx, if_neg Bool.false_ne_true, collapseFrom_true]

theorem collapse_cons_neg {x : α} (hx : ¬ p x) (l : List α) :
    collapse p a (x :: l) = x :: collapse p a l := by
  rw [collapse, collapseFrom, if_neg hx]
  rfl

theorem collapseFrom_head (inRun : Bool) (l : List α) :
    ∀ y ∈ (collapseFrom p a inRun l).head?, p y → inRun = false := by
  induction l generalizing inRun with
  | nil => exact fun y hy => absurd hy (by simp [collapseFrom])
  | cons x l ih =>
      intro y hy hpy
      rw [collapseFrom] at hy
      cases inRun with
      | false => rfl
      | true =>
          by_cases hx : p x
          · rw [if_pos hx, if_pos rfl] at hy
            exact ih true y hy hpy
          · rw [if_neg hx] at hy
            obtain rfl : x = y := by simpa using hy
            exact absurd hpy hx

theorem collapseFrom_apart (inRun : Bool) (l : List α) :
    Apart p (collapseFrom p a inRun l) := by
  induction l generalizing inRun with
  | nil => exact List.IsChain.nil
  | cons x l ih =>
      have hcons : ∀ (z : α) (r : Bool), (p z → r = true) →
          Apart p (z :: collapseFrom p a r l) := by
        intro z r hz
        refine List.isChain_cons.mpr ⟨?_, ih r⟩
        rintro y hy ⟨hpz, hpy⟩
        exact absurd (collapseFrom_head r l y hy hpy) (by simp [hz hpz])
      rw [collapseFrom]
      split
      · split
        · exact ih true
        · exact hcons a true fun _ => rfl
      · next hx => exact hcons x false fun hpx => absurd hpx hx

/-- The collapse has no two neighbours that meet `p`. -/
theorem collapse_apart (l : List α) : Apart p (collapse p a l) :=
  collapseFrom_apart false l

/-- What meets `p` in the collapse is `a`. -/
theorem eq_of_mem_collapseFrom {inRun : Bool} {l : List α} {x : α}
    (hx : x ∈ collapseFrom p a inRun l) (hp : p x) : x = a := by
  induction l generalizing inRun with
  | nil => exact absurd hx (by simp [collapseFrom])
  | cons y l ih =>
      rw [collapseFrom] at hx
      split at hx
      · split at hx
        · exact ih hx
        · rcases List.mem_cons.mp hx with rfl | hx
          · rfl
          · exact ih hx
      · next hy =>
          rcases List.mem_cons.mp hx with rfl | hx
          · exact absurd hp hy
          · exact ih hx

theorem collapseFrom_eq_self {inRun : Bool} {l : List α} (hl : Apart p l)
    (hall : ∀ x ∈ l, p x → x = a) (hhead : ∀ x ∈ l.head?, p x → inRun = false) :
    collapseFrom p a inRun l = l := by
  induction l generalizing inRun with
  | nil => rfl
  | cons x l ih =>
      obtain ⟨hnext, htail⟩ := List.isChain_cons.mp hl
      have hrest : ∀ r : Bool, (r = true → p x) → collapseFrom p a r l = l := by
        intro r hr
        refine ih htail (fun y hy => hall y (List.mem_cons_of_mem x hy)) ?_
        intro y hy hpy
        cases r with
        | false => rfl
        | true => exact absurd ⟨hr rfl, hpy⟩ (hnext y hy)
      rw [collapseFrom]
      by_cases hx : p x
      · have hrun : inRun = false := hhead x rfl hx
        rw [if_pos hx, hrun, if_neg (by simp), hrest true fun _ => hx, ← hall x List.mem_cons_self hx]
      · rw [if_neg hx, hrest false (fun h => absurd h (by simp))]

/-- A list is its own collapse exactly when no two neighbours meet `p` and every entry that
does is `a`. -/
theorem collapse_eq_self_iff {l : List α} :
    collapse p a l = l ↔ Apart p l ∧ ∀ x ∈ l, p x → x = a := by
  constructor
  · intro h
    refine ⟨h ▸ collapse_apart l, fun x hx hp => ?_⟩
    rw [← h] at hx
    exact eq_of_mem_collapseFrom hx hp
  · rintro ⟨hl, hall⟩
    exact collapseFrom_eq_self hl hall fun _ _ _ => rfl

/-- Where nothing meets `p` there is nothing to write otherwise. -/
theorem collapseFrom_of_forall_not {l : List α} (h : ∀ x ∈ l, ¬ p x) (inRun : Bool) :
    collapseFrom p a inRun l = l := by
  induction l generalizing inRun with
  | nil => rfl
  | cons x l ih =>
      rw [List.forall_mem_cons] at h
      rw [collapseFrom, if_neg h.1, ih h.2]

theorem collapse_ne_nil {l : List α} (h : l ≠ []) : collapse p a l ≠ [] := by
  cases l with
  | nil => exact absurd rfl h
  | cons x l =>
      rw [collapse, collapseFrom]
      split <;> simp

/-- A collapse begins with an entry that meets `p` exactly when the list does. -/
theorem head_collapse (ha : p a) (l : List α) :
    (∀ x ∈ (collapse p a l).head?, ¬ p x) ↔ ∀ x ∈ l.head?, ¬ p x := by
  cases l with
  | nil => rfl
  | cons x l =>
      rw [collapse, collapseFrom]
      by_cases hx : p x <;> simp [hx, ha]

/-- Whether an entry that meets `p` comes last. -/
def runAfter (p : α → Prop) [DecidablePred p] (inRun : Bool) (l : List α) : Bool :=
  l.getLast?.elim inRun fun x => p x

theorem collapseFrom_concat (inRun : Bool) (l : List α) (x : α) :
    collapseFrom p a inRun (l ++ [x])
      = collapseFrom p a inRun l ++ collapseFrom p a (runAfter p inRun l) [x] := by
  induction l generalizing inRun with
  | nil => rfl
  | cons y l ih =>
      have hrun : ∀ r : Bool, r = decide (p y) → runAfter p inRun (y :: l) = runAfter p r l := by
        rintro r rfl
        cases l with
        | nil => rfl
        | cons z l => rw [runAfter, runAfter, List.getLast?_cons_cons]; cases l <;> rfl
      rw [List.cons_append, collapseFrom, collapseFrom]
      by_cases hy : p y
      · rw [if_pos hy, if_pos hy, ih, hrun true (decide_eq_true hy).symm]
        split <;> rfl
      · rw [if_neg hy, if_neg hy, ih, hrun false (decide_eq_false hy).symm]
        rfl

/-- A collapse ends with an entry that meets `p` exactly when the list does. -/
theorem getLast_collapse (ha : p a) (l : List α) :
    (∀ x ∈ (collapse p a l).getLast?, ¬ p x) ↔ ∀ x ∈ l.getLast?, ¬ p x := by
  induction l using List.reverseRecOn with
  | nil => rfl
  | append_singleton l x ih =>
      rw [collapse, collapseFrom_concat]
      by_cases hx : p x
      · cases hrun : runAfter p false l with
        | false => simp [collapseFrom, hx, ha]
        | true =>
            -- the run goes on, and the collapse ends as it did
            have hlast : ¬ ∀ y ∈ l.getLast?, ¬ p y := by
              intro hn
              rw [runAfter] at hrun
              cases hl : l.getLast? with
              | none => simp [hl] at hrun
              | some y => exact hn y hl (by simpa [hl] using hrun)
            rw [← ih, collapse] at hlast
            simpa [collapseFrom, hx] using hlast
      · simp [collapseFrom, hx]

/-! ## Lists put together -/

/-- Two lists that `a` can stand between: neither meets `p` there. -/
def Fits (p : α → Prop) (l l' : List α) : Prop :=
  (∀ x ∈ l.getLast?, ¬ p x) ∧ ∀ x ∈ l'.head?, ¬ p x

instance (l l' : List α) : Decidable (Fits p l l') := inferInstanceAs (Decidable (_ ∧ _))

theorem head_intercalate {l : List α} {ls : List (List α)} (hl : l ≠ []) :
    ([a].intercalate (l :: ls)).head? = l.head? := by
  cases ls with
  | nil => rw [List.intercalate_singleton]
  | cons l' ls =>
      rw [List.intercalate_cons_cons, List.append_assoc, List.head?_append_of_ne_nil _ hl]

omit [DecidablePred p] in
/-- Non-empty lists put together with `a` between them have no two neighbours that meet `p`
exactly when none of them has, and any two that follow each other fit. -/
theorem apart_intercalate_iff (ha : p a) {ls : List (List α)} (hne : ∀ l ∈ ls, l ≠ []) :
    Apart p ([a].intercalate ls) ↔ (∀ l ∈ ls, Apart p l) ∧ ls.IsChain (Fits p) := by
  induction ls with
  | nil => simp [Apart]
  | cons l ls ih =>
      rw [List.forall_mem_cons] at hne
      cases ls with
      | nil => simp
      | cons l' ls =>
          have hhead : ([a].intercalate (l' :: ls)).head? = l'.head? :=
            head_intercalate (hne.2 l' List.mem_cons_self)
          have hnext : (∀ y ∈ l'.head?, ¬ (p a ∧ p y)) ↔ ∀ y ∈ l'.head?, ¬ p y := by simp [ha]
          have hlast : (∀ x ∈ l.getLast?, ∀ y ∈ (a :: [a].intercalate (l' :: ls)).head?, ¬ (p x ∧ p y))
              ↔ ∀ x ∈ l.getLast?, ¬ p x := by simp [ha]
          have hrest := ih hne.2
          rw [Apart] at hrest
          rw [List.intercalate_cons_cons, List.append_assoc, List.singleton_append, Apart,
            List.isChain_append, List.isChain_cons, hhead, hrest, hnext, hlast, List.isChain_cons_cons,
            Fits]
          constructor
          · rintro ⟨hl, ⟨hfirst, hall, hchain⟩, hend⟩
            exact ⟨List.forall_mem_cons.mpr ⟨hl, hall⟩, ⟨hend, hfirst⟩, hchain⟩
          · rintro ⟨hall, ⟨hend, hfirst⟩, hchain⟩
            obtain ⟨hl, hall⟩ := List.forall_mem_cons.mp hall
            exact ⟨hl, ⟨hfirst, hall, hchain⟩, hend⟩

/-- A stretch that is put together first. -/
theorem intercalate_append_intercalate (s : List α) {ls ms ns : List (List α)} (h : ms ≠ []) :
    s.intercalate (ls ++ s.intercalate ms :: ns) = s.intercalate (ls ++ (ms ++ ns)) := by
  have hcons : ∀ (l : List α) {ks : List (List α)}, ks ≠ [] →
      s.intercalate (l :: ks) = l ++ s ++ s.intercalate ks :=
    fun _ _ hks => List.intercalate_cons_of_ne_nil hks
  have hmid : s.intercalate (s.intercalate ms :: ns) = s.intercalate (ms ++ ns) := by
    cases ns with
    | nil => simp
    | cons n ns =>
        rw [hcons _ (by simp)]
        induction ms with
        | nil => exact absurd rfl h
        | cons m ms ih =>
            cases ms with
            | nil => simp
            | cons m' ms =>
                rw [hcons m (by simp), List.cons_append, hcons m (by simp), ← ih (by simp)]
                simp only [List.append_assoc]
  induction ls with
  | nil => exact hmid
  | cons l ls ih =>
      rw [List.cons_append, List.cons_append, hcons l (by simp), hcons l (by simp [h]), ih]

end Tmg.Lib
