/-
# `Tmg.Nob.Rebuild` — `nob.needs_rebuild`

A target is rebuilt if it is missing or if a source is newer; a source that is missing is
an error.  The loop over the sources tests both things of each source in turn and leaves
at the first it finds:

    sources  missing, newer      the error
    sources  newer, missing      true

so whether the missing source is reported depends on where it stands in the list.
`outcome_perm_iff` says that this is the only case in which the order matters.

`nob.get_mtime` is a parameter, `0` for a file that cannot be examined.
-/
import Mathlib.Algebra.GroupWithZero.Nat
import Tmg.Str
import Tmg.Lib.FirstHit

namespace Tmg.Nob

open Lib

variable {τ : Type*} [Zero τ] [DecidableEq τ] [LT τ] [DecidableLT τ]

/-- The argument `sources`: a string, or a list of strings. -/
inductive Sources where
  | string (src : Bytes)
  | list (srcs : List Bytes)
deriving DecidableEq, Repr

/-- `if type(sources) == "string" then sources = { sources } end` -/
def Sources.toList : Sources → List Bytes
  | string src => [src]
  | list srcs => srcs

/-- The error of `needs_rebuild`: the source that does not exist. -/
structure MissingSource where
  src : Bytes
deriving DecidableEq, Repr

/-- `string.format("[NOB ERROR] Source '%s' does not exist!", src)` -/
def MissingSource.message (e : MissingSource) : Bytes :=
  ascii "[NOB ERROR] Source '" ++ e.src ++ ascii "' does not exist!"

/-- The loop over the sources. -/
def checkSources (getMtime : Bytes → τ) (targetTime : τ) : List Bytes → Except MissingSource Bool
  | [] => .ok false
  | src :: rest =>
      let srcTime := getMtime src
      if srcTime = 0 then .error ⟨src⟩
      else if targetTime < srcTime then .ok true
      else checkSources getMtime targetTime rest

/-- `nob.needs_rebuild` -/
def needsRebuild (getMtime : Bytes → τ) (target : Bytes) (sources : Sources) :
    Except MissingSource Bool :=
  let targetTime := getMtime target
  if targetTime = 0 then .ok true else checkSources getMtime targetTime sources.toList

/-! ## The loop as a search -/

/-- The outcome as a caller tells it apart: true, false, or the error. -/
def outcome : Except MissingSource Bool → Option Bool
  | .ok b => some b
  | .error _ => none

/-- What one source decides. -/
def decides (getMtime : Bytes → τ) (targetTime : τ) (src : Bytes) : Option (Option Bool) :=
  if getMtime src = 0 then some none
  else if targetTime < getMtime src then some (some true)
  else none

theorem outcome_checkSources (getMtime : Bytes → τ) (targetTime : τ) (srcs : List Bytes) :
    outcome (checkSources getMtime targetTime srcs)
      = (srcs.findSome? (decides getMtime targetTime)).getD (some false) := by
  induction srcs with
  | nil => rfl
  | cons src rest ih =>
      rw [List.findSome?_cons, checkSources, decides]
      by_cases h0 : getMtime src = 0
      · simp [h0, outcome]
      · by_cases hnew : targetTime < getMtime src
        · simp [h0, hnew, outcome]
        · simpa [h0, hnew] using ih

/-- The error names a source of the list that is missing. -/
theorem missing_of_checkSources {getMtime : Bytes → τ} {targetTime : τ} {srcs : List Bytes}
    {e : MissingSource} (h : checkSources getMtime targetTime srcs = .error e) :
    e.src ∈ srcs ∧ getMtime e.src = 0 := by
  induction srcs with
  | nil => exact absurd h (by simp [checkSources])
  | cons src rest ih =>
      rw [checkSources] at h
      split at h
      · next h0 =>
          cases h
          exact ⟨List.mem_cons_self, h0⟩
      · split at h
        · cases h
        · exact ⟨List.mem_cons_of_mem src (ih h).1, (ih h).2⟩

/-! ## The order of the sources -/

theorem hitsAgree_decides_iff {getMtime : Bytes → τ} {targetTime : τ} {srcs : List Bytes} :
    HitsAgree (decides getMtime targetTime) srcs ↔
      (∀ src ∈ srcs, getMtime src ≠ 0) ∨
        ∀ src ∈ srcs, getMtime src = 0 ∨ ¬ targetTime < getMtime src := by
  constructor
  · intro h
    by_contra hn
    simp only [not_or, not_forall, not_not] at hn
    obtain ⟨⟨x, hx, hx0⟩, y, hy, hy0, hnew⟩ := hn
    have hdx : decides getMtime targetTime x = some none := if_pos hx0
    have hdy : decides getMtime targetTime y = some (some true) := by
      rw [decides, if_neg hy0, if_pos hnew]
    exact absurd (h x hx y hy _ _ hdx hdy) (by simp)
  · intro h x hx y hy b c hb hc
    unfold decides at hb hc
    split_ifs at hb with hx0 hxnew <;> cases hb <;> split_ifs at hc with hy0 hynew <;> cases hc
    · rfl
    · -- a missing and a newer source
      rcases h with h | h
      · exact absurd hx0 (h x hx)
      · exact absurd hynew ((h y hy).resolve_left hy0)
    · rcases h with h | h
      · exact absurd hy0 (h y hy)
      · exact absurd hxnew ((h x hx).resolve_left hx0)
    · rfl

/-- The search never finds what the loop ends with. -/
theorem findSome?_decides_ne (getMtime : Bytes → τ) (targetTime : τ) (srcs : List Bytes) :
    srcs.findSome? (decides getMtime targetTime) ≠ some (some false) := by
  intro h
  obtain ⟨x, -, hx⟩ := List.exists_of_findSome?_eq_some h
  unfold decides at hx
  split_ifs at hx <;> cases hx

/-- **The outcome is the same for every order of the sources exactly when the target is
missing, or no source is, or no source is newer.** -/
theorem outcome_perm_iff (getMtime : Bytes → τ) (target : Bytes) (srcs : List Bytes) :
    (∀ srcs' : List Bytes, srcs'.Perm srcs →
        outcome (needsRebuild getMtime target (.list srcs'))
          = outcome (needsRebuild getMtime target (.list srcs))) ↔
      getMtime target = 0 ∨ (∀ src ∈ srcs, getMtime src ≠ 0) ∨
        ∀ src ∈ srcs, getMtime src = 0 ∨ ¬ getMtime target < getMtime src := by
  by_cases h0 : getMtime target = 0
  · simp [needsRebuild, h0]
  · have hloop : ∀ l : List Bytes, needsRebuild getMtime target (.list l)
        = checkSources getMtime (getMtime target) l := fun l => if_neg h0
    simp only [hloop, outcome_checkSources,
      getD_inj (findSome?_decides_ne getMtime (getMtime target) _)
        (findSome?_decides_ne getMtime (getMtime target) _)]
    rw [findSome?_perm_iff, hitsAgree_decides_iff, or_iff_right h0]

/-- A target of time 5 with a newer source and a missing one: each order has its outcome. -/
theorem outcome_depends_on_order :
    let getMtime : Bytes → Nat := fun f => if f = ascii "out" then 5 else if f = ascii "new" then 9 else 0
    needsRebuild getMtime (ascii "out") (.list [ascii "new", ascii "gone"]) = .ok true ∧
      needsRebuild getMtime (ascii "out") (.list [ascii "gone", ascii "new"])
        = .error ⟨ascii "gone"⟩ ∧
      [ascii "gone", ascii "new"].Perm [ascii "new", ascii "gone"] ∧
      outcome (needsRebuild getMtime (ascii "out") (.list [ascii "gone", ascii "new"]))
        ≠ outcome (needsRebuild getMtime (ascii "out") (.list [ascii "new", ascii "gone"])) := by
  decide

end Tmg.Nob
