/-
# `Tmg.Lua.Sort` — `table.sort`

A quicksort in place.  Of a range `l`, …, `u` the first, the middle and the last entry are put
in order, the middle one is the pivot `P` and is set aside at `u-1`, and two scans go towards
each other,

    l        i ->                  <- j        u-1   u
    <= P     <= P  …  ?  ?  ?  …  >= P         P     >= P

exchanging what stops them.  The entries at both ends stop a scan that finds nothing else, so
no scan needs a test of its index; the one it has is for an order function that is none, and
raises an error.

Where it raises no error the result has the entries of the table (`auxsort_rearranged`),
whatever the order function does, and nothing outside of the range is read or written
(`auxsort_piecewise`).  With an order (`WeakOrder`) it raises none and the entries come out in
order (`auxsort_ordered`).
-/
import Mathlib.Order.Interval.Set.Basic
import Tmg.Lib.Rearrange
import Tmg.Lib.Outcome
import Tmg.Str

namespace Tmg.Lua

open Lib

variable {α : Type*}

/-- `LJ_ERR_TABSORT` -/
inductive SortError where
  | invalidOrder
deriving DecidableEq, Repr

def SortError.message : SortError → Bytes
  | invalidOrder => ascii "invalid order function for sorting"

section

variable (lt : α → α → Bool)

/-! ## The scans -/

/-- `repeat ++i until a[i] >= P` -/
def scanUp (t : Nat → α) (P : α) (u i : Nat) : Except SortError Nat :=
  if lt (t (i + 1)) P then
    if u ≤ i + 1 then .error .invalidOrder else scanUp t P u (i + 1)
  else .ok (i + 1)
termination_by u - i

/-- `repeat --j until a[j] <= P` -/
def scanDown (t : Nat → α) (P : α) (l j : Nat) : Except SortError Nat :=
  if lt P (t (j - 1)) then
    if j - 1 ≤ l then .error .invalidOrder else scanDown t P l (j - 1)
  else .ok (j - 1)
termination_by j

variable {lt}

theorem scanUp_spec {t : Nat → α} {P : α} {u i i' : Nat} (h : scanUp lt t P u i = .ok i') :
    i < i' ∧ (i < u → i' ≤ u) ∧ lt (t i') P = false ∧ ∀ k, i < k → k < i' → lt (t k) P = true := by
  induction hn : u - i using Nat.strong_induction_on generalizing i with
  | h n ih =>
      rw [scanUp] at h
      split_ifs at h with hlt hend
      · obtain ⟨hi, hu, hstop, hskip⟩ := ih (u - (i + 1)) (by omega) h rfl
        refine ⟨by omega, fun _ => hu (by omega), hstop, fun k hk hk' => ?_⟩
        rcases Nat.lt_or_ge (i + 1) k with hk1 | hk1
        · exact hskip k hk1 hk'
        · obtain rfl : k = i + 1 := by omega
          exact hlt
      · obtain rfl := Except.ok.inj h
        exact ⟨by omega, fun hu => hu, by simpa using hlt, fun k hk hk' => by omega⟩

theorem scanDown_spec {t : Nat → α} {P : α} {l j j' : Nat} (h : scanDown lt t P l j = .ok j') :
    j' ≤ j - 1 ∧ (l < j → l ≤ j') ∧ lt P (t j') = false ∧ ∀ k, j' < k → k < j → lt P (t k) = true := by
  induction j using Nat.strong_induction_on with
  | h j ih =>
      rw [scanDown] at h
      split_ifs at h with hlt hend
      · obtain ⟨hj, hl, hstop, hskip⟩ := ih (j - 1) (by omega) h
        refine ⟨by omega, fun _ => hl (by omega), hstop, fun k hk hk' => ?_⟩
        rcases Nat.lt_or_ge k (j - 1) with hk1 | hk1
        · exact hskip k hk hk1
        · obtain rfl : k = j - 1 := by omega
          exact hlt
      · obtain rfl := Except.ok.inj h
        exact ⟨le_rfl, fun hl => by omega, by simpa using hlt, fun k hk hk' => by omega⟩

/-- A scan is stopped by an entry that is not smaller than the pivot. -/
theorem scanUp_ok {t : Nat → α} {P : α} {u m : Nat} (hm : lt (t m) P = false) (hu : m ≤ u) :
    ∀ {i : Nat}, i < m → ∃ i', scanUp lt t P u i = .ok i' ∧ i' ≤ m := by
  intro i hi
  induction hn : m - i using Nat.strong_induction_on generalizing i with
  | h n ih =>
      rw [scanUp]
      by_cases hlt : lt (t (i + 1)) P = true
      · have hne : i + 1 ≠ m := by
          rintro rfl
          exact absurd hlt (by simp [hm])
        rw [if_pos hlt, if_neg (by omega)]
        exact ih (m - (i + 1)) (by omega) (by omega) rfl
      · rw [if_neg hlt]
        exact ⟨i + 1, rfl, hi⟩

theorem scanDown_ok {t : Nat → α} {P : α} {l m : Nat} (hm : lt P (t m) = false) (hl : l ≤ m) :
    ∀ {j : Nat}, m < j → ∃ j', scanDown lt t P l j = .ok j' ∧ m ≤ j' := by
  intro j hj
  induction j using Nat.strong_induction_on with
  | h j ih =>
      rw [scanDown]
      by_cases hlt : lt P (t (j - 1)) = true
      · have hne : j - 1 ≠ m := by
          rintro rfl
          exact absurd hlt (by simp [hm])
        rw [if_pos hlt, if_neg (by omega)]
        exact ih (j - 1) (by omega) (by omega)
      · rw [if_neg hlt]
        exact ⟨j - 1, rfl, by omega⟩

/-! ## The partition -/

variable (lt)

/-- The loop of `auxsort` with the two scans: the table behind it, and `i`. -/
def partitionLoop (P : α) (l u : Nat) (t : Nat → α) (i j : Nat) : Except SortError ((Nat → α) × Nat) :=
  match _hi : scanUp lt t P u i with
  | .error e => .error e
  | .ok i' =>
      match _hj : scanDown lt t P l j with
      | .error e => .error e
      | .ok j' => if j' < i' then .ok (t, i') else partitionLoop P l u (exchange t i' j') i' j'
termination_by j
decreasing_by
  have hi := (scanUp_spec _hi).1
  have hj := (scanDown_spec _hj).1
  omega

variable {lt}

/-- One turn of the loop. -/
theorem partitionLoop_turn (P : α) (l u : Nat) (t : Nat → α) (i j : Nat) :
    partitionLoop lt P l u t i j =
      match scanUp lt t P u i with
      | .error e => .error e
      | .ok i' =>
          match scanDown lt t P l j with
          | .error e => .error e
          | .ok j' =>
              if j' < i' then .ok (t, i') else partitionLoop lt P l u (exchange t i' j') i' j' := by
  rw [partitionLoop.eq_def]
  split
  · next hi => rw [hi]
  · next hi =>
      rw [hi]
      split
      · next hj => rw [hj]
      · next hj => rw [hj]

theorem partitionLoop_eq {P : α} {l u : Nat} {t : Nat → α} {i j i' j' : Nat}
    (hi : scanUp lt t P u i = .ok i') (hj : scanDown lt t P l j = .ok j') :
    partitionLoop lt P l u t i j =
      if j' < i' then .ok (t, i') else partitionLoop lt P l u (exchange t i' j') i' j' := by
  rw [partitionLoop_turn, hi, hj]

/-- The turns of a loop that raises no error. -/
theorem partitionLoop_cases {P : α} {l u : Nat} {t : Nat → α} {i j : Nat} {r : (Nat → α) × Nat}
    (h : partitionLoop lt P l u t i j = .ok r) :
    ∃ i' j', scanUp lt t P u i = .ok i' ∧ scanDown lt t P l j = .ok j' ∧
      ((j' < i' ∧ r = (t, i')) ∨
        (i' ≤ j' ∧ partitionLoop lt P l u (exchange t i' j') i' j' = .ok r)) := by
  rw [partitionLoop_turn] at h
  cases hi : scanUp lt t P u i with
  | error e => exact absurd h (by simp [hi])
  | ok i' =>
      cases hj : scanDown lt t P l j with
      | error e => exact absurd h (by simp [hi, hj])
      | ok j' =>
          simp only [hi, hj] at h
          refine ⟨i', j', rfl, rfl, ?_⟩
          split_ifs at h with hlt
          · exact .inl ⟨hlt, (Except.ok.inj h).symm⟩
          · exact .inr ⟨by omega, h⟩

/-- The loop exchanges entries of the range, and stops in it. -/
theorem partitionLoop_rearranged {P : α} {l u : Nat} {t : Nat → α} {i j : Nat} {r : (Nat → α) × Nat}
    (h : partitionLoop lt P l u t i j = .ok r) (hl : l ≤ i) (hiu : i < u) (hju : j ≤ u) :
    Rearranged l u t r.1 ∧ i < r.2 ∧ r.2 ≤ u := by
  induction j using Nat.strong_induction_on generalizing t i with
  | h j ih =>
      obtain ⟨i', j', hi, hj, h | h⟩ := partitionLoop_cases h
      · obtain ⟨hlt, hle, -⟩ := scanUp_spec hi
        obtain ⟨-, rfl⟩ := h
        exact ⟨.refl l u t, hlt, hle hiu⟩
      · obtain ⟨hlt, -⟩ := scanUp_spec hi
        obtain ⟨hle, -⟩ := scanDown_spec hj
        obtain ⟨hij, h⟩ := h
        have hrest := ih j' (by omega) h (by omega) (by omega) (by omega)
        refine ⟨.trans ?_ hrest.1, by omega, hrest.2.2⟩
        exact .exchange ⟨by omega, by omega⟩ ⟨by omega, by omega⟩

/-! ## The sort -/

variable (lt)

/-- `a[u] < a[l]`: swap them. -/
def orderEnds (t : Nat → α) (l u : Nat) : Nat → α := if lt (t u) (t l) then exchange t l u else t

/-- `a[i] < a[l]`: swap them, else the same of `a[u] < a[i]`. -/
def orderMiddle (t : Nat → α) (l i u : Nat) : Nat → α :=
  if lt (t i) (t l) then exchange t i l
  else if lt (t u) (t i) then exchange t i u
  else t

/-- `auxsort` -/
def auxsort (t : Nat → α) (l u : Nat) : Except SortError (Nat → α) :=
  if l < u then
    let t := orderEnds lt t l u
    if u - l = 1 then .ok t
    else
      let i := (l + u) / 2
      let t := orderMiddle lt t l i u
      if u - l = 2 then .ok t
      else
        match _h : partitionLoop lt (t i) l u (exchange t i (u - 1)) l (u - 1) with
        | .error e => .error e
        | .ok (t, i) =>
            let t := exchange t (u - 1) i
            -- the smaller part is sorted by a call, the larger one by the loop
            if i - l < u - i then
              match auxsort t l (i - 1) with
              | .error e => .error e
              | .ok t => auxsort t (i + 1) u
            else
              match auxsort t (i + 1) u with
              | .error e => .error e
              | .ok t => auxsort t l (i - 1)
  else .ok t
termination_by u - l
decreasing_by
  all_goals
    have hi := (partitionLoop_rearranged _h le_rfl (by omega) (by omega)).2
    omega

variable {lt}

theorem orderEnds_rearranged {t : Nat → α} {l u : Nat} (h : l ≤ u) :
    Rearranged l u t (orderEnds lt t l u) := by
  rw [orderEnds]
  split
  · exact .exchange ⟨le_rfl, h⟩ ⟨h, le_rfl⟩
  · exact .refl l u t

theorem orderMiddle_rearranged {t : Nat → α} {l i u : Nat} (hi : l ≤ i) (hu : i ≤ u) :
    Rearranged l u t (orderMiddle lt t l i u) := by
  have hl : l ≤ l ∧ l ≤ u := ⟨le_rfl, hi.trans hu⟩
  have hr : l ≤ u ∧ u ≤ u := ⟨hi.trans hu, le_rfl⟩
  rw [orderMiddle]
  split_ifs
  · exact .exchange ⟨hi, hu⟩ hl
  · exact .exchange ⟨hi, hu⟩ hr
  · exact .refl l u t

/-- The table when the pivot has been put in its place, and the place. -/
def partitioned (lt : α → α → Bool) (t : Nat → α) (l u : Nat) : Except SortError ((Nat → α) × Nat) :=
  let i := (l + u) / 2
  let t := orderMiddle lt (orderEnds lt t l u) l i u
  (partitionLoop lt (t i) l u (exchange t i (u - 1)) l (u - 1)).map fun r =>
    (exchange r.1 (u - 1) r.2, r.2)

theorem auxsort_of_le {t : Nat → α} {l u : Nat} (h : u ≤ l) : auxsort lt t l u = .ok t := by
  rw [auxsort, if_neg (by omega)]

theorem auxsort_two {t : Nat → α} {l u : Nat} (h : u = l + 1) :
    auxsort lt t l u = .ok (orderEnds lt t l u) := by
  rw [auxsort, if_pos (by omega), if_pos (by omega)]

theorem auxsort_three {t : Nat → α} {l u : Nat} (h : u = l + 2) :
    auxsort lt t l u = .ok (orderMiddle lt (orderEnds lt t l u) l (l + 1) u) := by
  have hi : (l + u) / 2 = l + 1 := by omega
  rw [auxsort, if_pos (by omega), if_neg (by omega), if_pos (by omega), hi]

/-- A longer range: the parts on both sides of the pivot, the smaller one first. -/
theorem auxsort_more {t : Nat → α} {l u : Nat} (h : l + 2 < u) :
    auxsort lt t l u = partitioned lt t l u >>= fun r =>
      if r.2 - l < u - r.2 then auxsort lt r.1 l (r.2 - 1) >>= fun t => auxsort lt t (r.2 + 1) u
      else auxsort lt r.1 (r.2 + 1) u >>= fun t => auxsort lt t l (r.2 - 1) := by
  rw [auxsort.eq_def, if_pos (by omega), if_neg (by omega), if_neg (by omega), partitioned]
  dsimp only
  split
  · next e he => rw [he]; rfl
  · next t' i' hr =>
      rw [hr]
      show _ = if i' - l < u - i' then _ else _
      by_cases hi : i' - l < u - i'
      · rw [if_pos hi, if_pos hi]
        cases auxsort lt (exchange t' (u - 1) i') l (i' - 1) <;> rfl
      · rw [if_neg hi, if_neg hi]
        cases auxsort lt (exchange t' (u - 1) i') (i' + 1) u <;> rfl

theorem partitioned_rearranged {t : Nat → α} {l u : Nat} {r : (Nat → α) × Nat}
    (h : partitioned lt t l u = .ok r) (hu : l + 2 < u) :
    Rearranged l u t r.1 ∧ l < r.2 ∧ r.2 ≤ u := by
  rw [partitioned] at h
  obtain ⟨p, hp, rfl⟩ := map_eq_ok h
  obtain ⟨hloop, hlt, hle⟩ := partitionLoop_rearranged hp le_rfl (by omega) (by omega)
  have hends : Rearranged l u t (orderEnds lt t l u) := orderEnds_rearranged (by omega)
  have hmiddle : Rearranged l u (orderEnds lt t l u)
      (orderMiddle lt (orderEnds lt t l u) l ((l + u) / 2) u) :=
    orderMiddle_rearranged (by omega) (by omega)
  have hback : Rearranged l u p.1 (exchange p.1 (u - 1) p.2) :=
    .exchange ⟨by omega, by omega⟩ ⟨hlt.le, hle⟩
  refine ⟨hends.trans (hmiddle.trans (.trans ?_ (hloop.trans hback))), hlt, hle⟩
  exact .exchange ⟨by omega, by omega⟩ ⟨by omega, by omega⟩

theorem auxsort_parted {t : Nat → α} {l u : Nat} (h : l + 2 < u) {r : (Nat → α) × Nat}
    (hr : partitioned lt t l u = .ok r) :
    auxsort lt t l u =
      if r.2 - l < u - r.2 then auxsort lt r.1 l (r.2 - 1) >>= fun t => auxsort lt t (r.2 + 1) u
      else auxsort lt r.1 (r.2 + 1) u >>= fun t => auxsort lt t l (r.2 - 1) := by
  rw [auxsort_more h, hr]
  rfl

/-- **Where the sort raises no error it only moves entries of the range**, whatever the order
function answers. -/
theorem auxsort_rearranged {t t' : Nat → α} {l u : Nat} (h : auxsort lt t l u = .ok t') :
    Rearranged l u t t' := by
  induction hn : u - l using Nat.strong_induction_on generalizing t t' l u with
  | h n ih =>
      rcases Nat.lt_or_ge (l + 2) u with hmore | hle
      · rw [auxsort_more hmore] at h
        obtain ⟨r, hr, h⟩ := bind_eq_ok_iff.mp h
        obtain ⟨hparts, hlow, hhigh⟩ := partitioned_rearranged hr hmore
        refine hparts.trans ?_
        split_ifs at h
        · obtain ⟨q, hq, h⟩ := bind_eq_ok_iff.mp h
          have hfirst := ih _ (by omega) hq rfl
          have hsecond := ih _ (by omega) h rfl
          exact (hfirst.mono le_rfl (by omega)).trans (hsecond.mono (by omega) le_rfl)
        · obtain ⟨q, hq, h⟩ := bind_eq_ok_iff.mp h
          have hfirst := ih _ (by omega) hq rfl
          have hsecond := ih _ (by omega) h rfl
          exact (hfirst.mono (by omega) le_rfl).trans (hsecond.mono le_rfl (by omega))
      · rcases Nat.lt_or_ge l u with hlt | hge
        · obtain hu | hu : u = l + 1 ∨ u = l + 2 := by omega
          · rw [auxsort_two hu] at h
            exact Except.ok.inj h ▸ orderEnds_rearranged hlt.le
          · rw [auxsort_three hu] at h
            rw [← Except.ok.inj h]
            exact (orderEnds_rearranged hlt.le).trans (orderMiddle_rearranged (by omega) (by omega))
        · rw [auxsort_of_le hge] at h
          exact Except.ok.inj h ▸ .refl l u t

/-! ## The rest of the table

A table that holds `t` in the range `L`, …, `U` and `rest` outside of it: a step that stays in
the range is the step on `t`, and leaves `rest` where it is. -/

section

variable {t rest : Nat → α} {L U : Nat}

theorem scanUp_piecewise {P : α} {u i : Nat} (hL : L ≤ i + 1) (hi : i < u) (hU : u ≤ U) :
    scanUp lt ((Set.Icc L U).piecewise t rest) P u i = scanUp lt t P u i := by
  induction hn : u - i using Nat.strong_induction_on generalizing i with
  | h n ih =>
      have hmem : i + 1 ∈ Set.Icc L U := ⟨hL, by omega⟩
      conv_lhs => rw [scanUp, Set.piecewise_eq_of_mem _ _ _ hmem]
      conv_rhs => rw [scanUp]
      split_ifs with hlt hend
      · rfl
      · exact ih _ (by omega) (by omega) (by omega) rfl
      · rfl

theorem scanDown_piecewise {P : α} {l j : Nat} (hL : L ≤ l) (hj : l < j) (hU : j - 1 ≤ U) :
    scanDown lt ((Set.Icc L U).piecewise t rest) P l j = scanDown lt t P l j := by
  induction j using Nat.strong_induction_on with
  | h j ih =>
      have hmem : j - 1 ∈ Set.Icc L U := ⟨by omega, hU⟩
      conv_lhs => rw [scanDown, Set.piecewise_eq_of_mem _ _ _ hmem]
      conv_rhs => rw [scanDown]
      split_ifs with hlt hend
      · rfl
      · exact ih (j - 1) (by omega) (by omega) (by omega)
      · rfl

/-- Both scans stay between the ends of the range, also where the order function is none. -/
theorem partitionLoop_piecewise {P : α} {l u i j : Nat} (hL : L ≤ l) (hU : u ≤ U) (hl : l ≤ i)
    (hi : i < u) (hj : l < j) (hu : j ≤ u) :
    partitionLoop lt P l u ((Set.Icc L U).piecewise t rest) i j =
      (partitionLoop lt P l u t i j).map fun r => ((Set.Icc L U).piecewise r.1 rest, r.2) := by
  induction j using Nat.strong_induction_on generalizing t i with
  | h j ih =>
      rw [partitionLoop_turn, partitionLoop_turn P l u t, scanUp_piecewise (by omega) hi hU,
        scanDown_piecewise hL hj (by omega)]
      cases hup : scanUp lt t P u i with
      | error e => rfl
      | ok i' =>
          cases hdown : scanDown lt t P l j with
          | error e => rfl
          | ok j' =>
              obtain ⟨hlt, hhigh, -⟩ := scanUp_spec hup
              obtain ⟨hle, hlow, -⟩ := scanDown_spec hdown
              have hiu : i' ≤ u := hhigh hi
              have hlj : l ≤ j' := hlow hj
              have hi' : i' ∈ Set.Icc L U := ⟨by omega, by omega⟩
              have hj' : j' ∈ Set.Icc L U := ⟨by omega, by omega⟩
              show (if _ then _ else _) = Except.map _ (if _ then _ else _)
              split_ifs with hcross
              · rfl
              · rw [exchange_piecewise hi' hj']
                exact ih j' (by omega) (by omega) (by omega) (by omega) (by omega)

theorem orderEnds_piecewise {l u : Nat} (hl : l ∈ Set.Icc L U) (hu : u ∈ Set.Icc L U) :
    orderEnds lt ((Set.Icc L U).piecewise t rest) l u =
      (Set.Icc L U).piecewise (orderEnds lt t l u) rest := by
  rw [orderEnds, orderEnds, Set.piecewise_eq_of_mem _ _ _ hl, Set.piecewise_eq_of_mem _ _ _ hu,
    exchange_piecewise hl hu]
  split <;> rfl

theorem orderMiddle_piecewise {l i u : Nat} (hl : l ∈ Set.Icc L U) (hi : i ∈ Set.Icc L U)
    (hu : u ∈ Set.Icc L U) :
    orderMiddle lt ((Set.Icc L U).piecewise t rest) l i u =
      (Set.Icc L U).piecewise (orderMiddle lt t l i u) rest := by
  rw [orderMiddle, orderMiddle, Set.piecewise_eq_of_mem _ _ _ hl, Set.piecewise_eq_of_mem _ _ _ hi,
    Set.piecewise_eq_of_mem _ _ _ hu, exchange_piecewise hi hl, exchange_piecewise hi hu]
  split_ifs <;> rfl

theorem partitioned_piecewise {l u : Nat} (hL : L ≤ l) (hU : u ≤ U) (h : l + 2 < u) :
    partitioned lt ((Set.Icc L U).piecewise t rest) l u =
      (partitioned lt t l u).map fun r => ((Set.Icc L U).piecewise r.1 rest, r.2) := by
  have hl : l ∈ Set.Icc L U := ⟨hL, by omega⟩
  have hu : u ∈ Set.Icc L U := ⟨by omega, hU⟩
  have hlast : u - 1 ∈ Set.Icc L U := ⟨by omega, by omega⟩
  have hi : (l + u) / 2 ∈ Set.Icc L U := ⟨by omega, by omega⟩
  rw [partitioned, partitioned, orderEnds_piecewise hl hu, orderMiddle_piecewise hl hi hu,
    Set.piecewise_eq_of_mem _ _ _ hi, exchange_piecewise hi hlast,
    partitionLoop_piecewise hL hU le_rfl (by omega) (by omega) (by omega)]
  cases hloop : partitionLoop lt _ l u _ l (u - 1) with
  | error e => rfl
  | ok r =>
      obtain ⟨-, hlt, hle⟩ := partitionLoop_rearranged hloop le_rfl (by omega) (by omega)
      exact congrArg (fun t => Except.ok (t, r.2))
        (exchange_piecewise hlast ⟨by omega, hle.trans hU⟩ r.1 rest)

/-- **Of a range the sort reads and writes the entries of the range and no others**, whatever
the order function answers. -/
theorem auxsort_piecewise {l u : Nat} (hL : L ≤ l) (hU : u ≤ U) :
    auxsort lt ((Set.Icc L U).piecewise t rest) l u =
      (auxsort lt t l u).map fun t => (Set.Icc L U).piecewise t rest := by
  induction hn : u - l using Nat.strong_induction_on generalizing t l u with
  | h n ih =>
      rcases Nat.lt_or_ge (l + 2) u with hmore | hle
      · rw [auxsort_more hmore, auxsort_more hmore, partitioned_piecewise hL hU hmore]
        cases hr : partitioned lt t l u with
        | error e => rfl
        | ok r =>
            obtain ⟨-, hlow, hhigh⟩ := partitioned_rearranged hr hmore
            -- the part below the pivot, and the part above it
            have hbelow (t : Nat → α) :=
              ih _ (by omega) (t := t) (l := l) (u := r.2 - 1) hL (by omega) rfl
            have habove (t : Nat → α) :=
              ih _ (by omega) (t := t) (l := r.2 + 1) (u := u) (by omega) hU rfl
            show (if r.2 - l < u - r.2 then _ else _)
              = Except.map _ (if r.2 - l < u - r.2 then _ else _)
            split_ifs
            · rw [hbelow]
              cases auxsort lt r.1 l (r.2 - 1) with
              | error e => rfl
              | ok q => exact habove q
            · rw [habove]
              cases auxsort lt r.1 (r.2 + 1) u with
              | error e => rfl
              | ok q => exact hbelow q
      · rcases Nat.lt_or_ge l u with hlt | hge
        · have hl : l ∈ Set.Icc L U := ⟨hL, by omega⟩
          have hu : u ∈ Set.Icc L U := ⟨by omega, hU⟩
          obtain hu' | hu' : u = l + 1 ∨ u = l + 2 := by omega
          · rw [auxsort_two hu', auxsort_two hu', orderEnds_piecewise hl hu]
            rfl
          · have hi : l + 1 ∈ Set.Icc L U := ⟨by omega, by omega⟩
            rw [auxsort_three hu', auxsort_three hu', orderEnds_piecewise hl hu,
              orderMiddle_piecewise hl hi hu]
            rfl
        · rw [auxsort_of_le hge, auxsort_of_le hge]
          rfl

end

/-! ## With an order -/

/-- `lt` is the strict part of an order in which any two entries compare. -/
structure WeakOrder (lt : α → α → Bool) : Prop where
  asymm : ∀ {a b}, lt a b = true → lt b a = false
  trans : ∀ {a b c}, lt b a = false → lt c b = false → lt c a = false

theorem WeakOrder.irrefl (ho : WeakOrder lt) (a : α) : lt a a = false := by
  cases haa : lt a a with
  | false => rfl
  | true => exact absurd (ho.asymm haa) (by simp [haa])

/-- `a <= b`, as the sort sees it. -/
def NotAbove (lt : α → α → Bool) (a b : α) : Prop := lt b a = false

theorem orderEnds_le (ho : WeakOrder lt) {t : Nat → α} {l u : Nat} :
    NotAbove lt (orderEnds lt t l u l) (orderEnds lt t l u u) := by
  rw [NotAbove, orderEnds]
  split
  · next h =>
      rw [exchange_left, exchange_right]
      exact ho.asymm h
  · next h => simpa using h

/-- Behind the second step the middle entry stands between the others. -/
theorem orderMiddle_le (ho : WeakOrder lt) {t : Nat → α} {l i u : Nat} (hl : l < i) (hu : i < u)
    (hends : NotAbove lt (t l) (t u)) :
    NotAbove lt (orderMiddle lt t l i u l) (orderMiddle lt t l i u i) ∧
      NotAbove lt (orderMiddle lt t l i u i) (orderMiddle lt t l i u u) := by
  unfold NotAbove at hends ⊢
  rw [orderMiddle]
  split_ifs with hil hui
  · rw [exchange_left, exchange_right, exchange_ne (by omega) (by omega)]
    exact ⟨ho.asymm hil, hends⟩
  · rw [exchange_left, exchange_right, exchange_ne (by omega) (by omega)]
    exact ⟨hends, ho.asymm hui⟩
  · exact ⟨by simpa using hil, by simpa using hui⟩

/-- Between the turns: what is left of `i` is not above the pivot, what is right of `j` not
below it, and the pivot is set aside. -/
structure Around (lt : α → α → Bool) (P : α) (l u : Nat) (t : Nat → α) (i j : Nat) : Prop where
  low : ∀ k, l ≤ k → k ≤ i → NotAbove lt (t k) P
  high : ∀ k, j ≤ k → k ≤ u → NotAbove lt P (t k)
  pivot : t (u - 1) = P
  left : l ≤ i
  up : i + 1 < u
  down : j < u
  right : l < j

/-- What a loop leaves that raises no error. -/
structure Parted (lt : α → α → Bool) (P : α) (l u : Nat) (t : Nat → α) (i : Nat) : Prop where
  low : ∀ k, l ≤ k → k < i → NotAbove lt (t k) P
  high : ∀ k, i ≤ k → k ≤ u → NotAbove lt P (t k)
  pivot : t (u - 1) = P
  left : l < i
  right : i < u

/-- The loop raises no error, since the entries at both ends stop the scans. -/
theorem partitionLoop_parted (ho : WeakOrder lt) {P : α} {l u : Nat} {t : Nat → α} {i j : Nat}
    (h : Around lt P l u t i j) :
    ∃ r, partitionLoop lt P l u t i j = .ok r ∧ Parted lt P l u r.1 r.2 := by
  induction j using Nat.strong_induction_on generalizing t i with
  | h j ih =>
      have hup := h.up
      have hdown := h.down
      have hleft := h.left
      have hright := h.right
      obtain ⟨i', hi, hi'⟩ := scanUp_ok (u := u) (m := u - 1) (t := t) (P := P)
        (by rw [h.pivot]; exact ho.irrefl P) (by omega) (i := i) (by omega)
      obtain ⟨j', hj, hj'⟩ := scanDown_ok (l := l) (m := l) (t := t) (P := P)
        (h.low l le_rfl hleft) le_rfl (j := j) hright
      obtain ⟨hii, -, histop, hiskip⟩ := scanUp_spec hi
      obtain ⟨hjj, -, hjstop, hjskip⟩ := scanDown_spec hj
      -- what the scans have passed
      have hlow : ∀ k, l ≤ k → k < i' → NotAbove lt (t k) P := by
        intro k hk hk'
        rcases Nat.lt_or_ge i k with hik | hki
        · exact ho.asymm (hiskip k hik hk')
        · exact h.low k hk hki
      have hhigh : ∀ k, j' < k → k ≤ u → NotAbove lt P (t k) := by
        intro k hk hk'
        rcases Nat.lt_or_ge k j with hkj | hjk
        · exact ho.asymm (hjskip k hk hkj)
        · exact h.high k hjk hk'
      rw [partitionLoop_eq hi hj]
      by_cases hcross : j' < i'
      · rw [if_pos hcross]
        refine ⟨_, rfl, hlow, ?_, h.pivot, by omega, by omega⟩
        exact fun k hk hk' => hhigh k (by omega) hk'
      · rw [if_neg hcross]
        refine ih j' (by omega) ⟨?_, ?_, ?_, by omega, by omega, by omega, by omega⟩
        · intro k hk hk'
          rcases Nat.lt_or_ge k i' with hki | hki
          · rw [exchange_ne (by omega) (by omega)]
            exact hlow k hk hki
          · obtain rfl : k = i' := by omega
            rw [exchange_left]
            exact hjstop
        · intro k hk hk'
          rcases Nat.lt_or_ge j' k with hjk | hjk
          · rw [exchange_ne (by omega) (by omega)]
            exact hhigh k hjk hk'
          · obtain rfl : k = j' := by omega
            rw [exchange_right]
            exact histop
        · rw [exchange_ne (by omega) (by omega), h.pivot]

/-- The loop begins with the pivot set aside. -/
theorem around_setAside (ho : WeakOrder lt) {t : Nat → α} {l u : Nat} (hu : l + 2 < u)
    (hlow : NotAbove lt (t l) (t ((l + u) / 2))) (hhigh : NotAbove lt (t ((l + u) / 2)) (t u)) :
    Around lt (t ((l + u) / 2)) l u (exchange t ((l + u) / 2) (u - 1)) l (u - 1) where
  low := by
    intro k hk hkl
    obtain rfl : k = l := by omega
    rwa [exchange_ne (by omega) (by omega)]
  high := by
    intro k hk hku
    obtain rfl | rfl : k = u - 1 ∨ k = u := by omega
    · rw [exchange_right]
      exact ho.irrefl _
    · rwa [exchange_ne (by omega) (by omega)]
  pivot := exchange_right _ _ _
  left := le_rfl
  up := by omega
  down := by omega
  right := by omega

/-- The pivot is put in its place. -/
theorem partitioned_between (ho : WeakOrder lt) {t : Nat → α} {l u : Nat} (hu : l + 2 < u) :
    ∃ r, partitioned lt t l u = .ok r ∧ l < r.2 ∧ r.2 < u ∧ Between (NotAbove lt) l r.2 u r.1 := by
  have hl : l < (l + u) / 2 := by omega
  have hr : (l + u) / 2 < u := by omega
  obtain ⟨hlow, hhigh⟩ := orderMiddle_le ho hl hr (orderEnds_le ho (t := t))
  obtain ⟨p, hp, hparted⟩ := partitionLoop_parted ho (around_setAside ho hu hlow hhigh)
  have hleft := hparted.left
  have hright := hparted.right
  refine ⟨(exchange p.1 (u - 1) p.2, p.2), by rw [partitioned, hp]; rfl, hleft, hright, ?_, ?_⟩
  · intro k hk hkm
    dsimp only
    rw [exchange_right, hparted.pivot, exchange_ne (by omega) (by omega)]
    exact hparted.low k hk hkm
  · intro k hmk hk
    dsimp only
    rw [exchange_right, hparted.pivot]
    by_cases hlast : k = u - 1
    · rw [hlast, exchange_left]
      exact hparted.high p.2 le_rfl hright.le
    · rw [exchange_ne hlast (by omega)]
      exact hparted.high k hmk.le hk

/-- **With an order the sort raises no error, and the entries of the range come out in order.** -/
theorem auxsort_ordered (ho : WeakOrder lt) (t : Nat → α) (l u : Nat) :
    ∃ t', auxsort lt t l u = .ok t' ∧ Ordered (NotAbove lt) l u t' := by
  have htrans : ∀ {a b c : α}, NotAbove lt a b → NotAbove lt b c → NotAbove lt a c :=
    fun hab hbc => ho.trans hab hbc
  induction hn : u - l using Nat.strong_induction_on generalizing t l u with
  | h n ih =>
      rcases Nat.lt_or_ge (l + 2) u with hmore | hle
      · obtain ⟨r, hr, hl, hu, hbetween⟩ := partitioned_between ho (t := t) hmore
        rw [auxsort_parted hmore hr]
        split_ifs
        · obtain ⟨q, hq, hlow⟩ := ih _ (by omega) r.1 l (r.2 - 1) rfl
          obtain ⟨t', ht', hhigh⟩ := ih _ (by omega) q (r.2 + 1) u rfl
          have hmoved := auxsort_rearranged ht'
          refine ⟨t', by rw [hq]; exact ht', .join htrans (m := r.2) ?_ ?_ hhigh⟩
          · exact (hbetween.low (auxsort_rearranged hq) hl).high hmoved
          · exact hlow.frame hmoved (by omega)
        · obtain ⟨q, hq, hhigh⟩ := ih _ (by omega) r.1 (r.2 + 1) u rfl
          obtain ⟨t', ht', hlow⟩ := ih _ (by omega) q l (r.2 - 1) rfl
          have hmoved := auxsort_rearranged ht'
          refine ⟨t', by rw [hq]; exact ht', .join htrans (m := r.2) ?_ hlow ?_⟩
          · exact (hbetween.high (auxsort_rearranged hq)).low hmoved hl
          · exact hhigh.frame hmoved (by omega)
      · rcases Nat.lt_or_ge l u with hlt | hge
        · obtain hu | hu : u = l + 1 ∨ u = l + 2 := by omega
          · refine ⟨_, auxsort_two hu, fun i j hi hij hj => ?_⟩
            obtain rfl : i = l := by omega
            obtain rfl : j = u := by omega
            exact orderEnds_le ho
          · have hmiddle := orderMiddle_le ho (t := orderEnds lt t l u) (i := l + 1) (u := u)
              (Nat.lt_succ_self l) (by omega) (orderEnds_le ho)
            refine ⟨_, auxsort_three hu, .join htrans (m := l + 1) ⟨?_, ?_⟩ (.of_le le_rfl _) (.of_le ?_ _)⟩
            · intro k hk hkm
              obtain rfl : k = l := by omega
              exact hmiddle.1
            · intro k hmk hk
              obtain rfl : k = u := by omega
              exact hmiddle.2
            · omega
        · exact ⟨t, auxsort_of_le hge, .of_le hge t⟩

/-! ## `table.sort` -/

/-- The table of a list; the first entry has the index 1. -/
def ofList [Inhabited α] (xs : List α) : Nat → α := fun k => xs.getD (k - 1) default

variable (lt) in
/-- `table.sort` -/
def sort [Inhabited α] (xs : List α) : Except SortError (List α) :=
  (auxsort lt (ofList xs) 1 xs.length).map fun t => entries t xs.length

theorem entries_ofList [Inhabited α] (xs : List α) : entries (ofList xs) xs.length = xs := by
  refine List.ext_getElem (by simp [entries]) fun k hk hk' => ?_
  simp [entries, ofList, hk']

/-- What a sort returns that raises no error. -/
theorem perm_of_sort [Inhabited α] {xs ys : List α} (h : sort lt xs = .ok ys) : ys.Perm xs := by
  obtain ⟨t, ht, rfl⟩ := map_eq_ok h
  have hperm := (auxsort_rearranged ht).perm
  rwa [entries_ofList] at hperm

/-- With an order it does return. -/
theorem exists_sort [Inhabited α] (ho : WeakOrder lt) (xs : List α) :
    ∃ ys, sort lt xs = .ok ys ∧ ys.Pairwise (NotAbove lt) := by
  obtain ⟨t, ht, hordered⟩ := auxsort_ordered ho (ofList xs) 1 xs.length
  exact ⟨entries t xs.length, by rw [sort, ht]; rfl, hordered.pairwise⟩

theorem ofList_entries [Inhabited α] (t : Nat → α) {n k : Nat} (hk : k ∈ Set.Icc 1 n) :
    ofList (entries t n) k = t k := by
  obtain ⟨h1, hn⟩ := hk
  have hlt : k - 1 < n := by omega
  have hidx : 1 + (k - 1) = k := by omega
  simp [entries, ofList, hlt, hidx]

/-- The sort of a table that holds more than the list. -/
theorem sort_inPlace [Inhabited α] (xs : List α) (rest : Nat → α) :
    auxsort lt ((Set.Icc 1 xs.length).piecewise (ofList xs) rest) 1 xs.length =
      (sort lt xs).map fun ys => (Set.Icc 1 xs.length).piecewise (ofList ys) rest := by
  rw [auxsort_piecewise le_rfl le_rfl, sort]
  cases auxsort lt (ofList xs) 1 xs.length with
  | error e => rfl
  | ok t =>
      refine congrArg Except.ok (funext fun k => ?_)
      dsimp only
      by_cases hk : k ∈ Set.Icc 1 xs.length
      · rw [Set.piecewise_eq_of_mem _ _ _ hk, Set.piecewise_eq_of_mem _ _ _ hk, ofList_entries t hk]
      · rw [Set.piecewise_eq_of_notMem _ _ _ hk, Set.piecewise_eq_of_notMem _ _ _ hk]

end

end Tmg.Lua
