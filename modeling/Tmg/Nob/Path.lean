/-
# `Tmg.Nob.Path` — `nob.path_join`

`nob.path_join(...)` drops the empty parts, writes every run of slashes and backslashes as
one separator, part by part, and puts separators between the parts.  A run that two parts
have between them is not seen by any of this:

    path_join("a/", "b")      a//b
    path_join("a//b")         a/b

so the result need not be what joining it again gives.  `normal_iff` says when it is:
when no part, where it is joined to another, has a separator of its own.
-/
import Tmg.Str
import Tmg.Lib.Collapse

namespace Tmg.Nob

open Lib

/-- A byte of the set `[/\\]`. -/
def IsSep (c : Byte) : Prop := c = 47 ∨ c = bsl

instance : DecidablePred IsSep := fun _ => inferInstanceAs (Decidable (_ ∨ _))

/-- `nob.is_windows and "\\" or "/"` -/
def pathSep (isWindows : Bool) : Byte := if isWindows then bsl else 47

/-- `p:gsub("[/\\]+", sep)` -/
def gsubSeps (isWindows : Bool) (p : Bytes) : Bytes := collapse IsSep (pathSep isWindows) p

/-- `clean` -/
def cleanParts (isWindows : Bool) (parts : List Bytes) : List Bytes :=
  (parts.filter (· ≠ [])).map (gsubSeps isWindows)

/-- `nob.path_join` -/
def pathJoin (isWindows : Bool) (parts : List Bytes) : Bytes :=
  [pathSep isWindows].intercalate (cleanParts isWindows parts)

/-! ## What is joined -/

section

variable (isWindows : Bool)

theorem isSep_pathSep : IsSep (pathSep isWindows) := by
  cases isWindows
  · exact .inl rfl
  · exact .inr rfl

theorem cleanParts_append (xs ys : List Bytes) :
    cleanParts isWindows (xs ++ ys) = cleanParts isWindows xs ++ cleanParts isWindows ys := by
  simp [cleanParts]

theorem cleanParts_ne_nil {parts : List Bytes} : ∀ p ∈ cleanParts isWindows parts, p ≠ [] := by
  intro p hp
  obtain ⟨q, hq, rfl⟩ := List.mem_map.mp hp
  exact collapse_ne_nil (by simpa using (List.mem_filter.mp hq).2)

/-- The parts that are joined have no separator of their own where they are. -/
def PartsFit (parts : List Bytes) : Prop := (parts.filter (· ≠ [])).IsChain (Fits IsSep)

instance (parts : List Bytes) : Decidable (PartsFit parts) :=
  inferInstanceAs (Decidable (List.IsChain _ _))

theorem fits_gsubSeps {p q : Bytes} :
    Fits IsSep (gsubSeps isWindows p) (gsubSeps isWindows q) ↔ Fits IsSep p q :=
  and_congr (getLast_collapse (isSep_pathSep isWindows) p) (head_collapse (isSep_pathSep isWindows) q)

/-- No two separators are adjacent in the path exactly when the parts fit. -/
theorem apart_pathJoin_iff (parts : List Bytes) :
    Apart IsSep (pathJoin isWindows parts) ↔ PartsFit parts := by
  rw [pathJoin, apart_intercalate_iff (isSep_pathSep isWindows) (cleanParts_ne_nil isWindows),
    cleanParts, List.isChain_map]
  have hfits : (fun p q => Fits IsSep (gsubSeps isWindows p) (gsubSeps isWindows q)) = Fits IsSep := by
    funext p q
    exact propext (fits_gsubSeps isWindows)
  rw [hfits, PartsFit, and_iff_right]
  rw [List.forall_mem_map]
  exact fun p _ => collapse_apart p

/-- Every separator of the path is the one of the system. -/
theorem eq_pathSep_of_mem {parts : List Bytes} {c : Byte} (hc : c ∈ pathJoin isWindows parts)
    (hsep : IsSep c) : c = pathSep isWindows := by
  rcases mem_intercalate hc with hc | ⟨p, hp, hc⟩
  · exact List.mem_singleton.mp hc
  · obtain ⟨q, -, rfl⟩ := List.mem_map.mp hp
    exact eq_of_mem_collapseFrom hc hsep

/-- A path that two adjacent separators are not in is not changed by collapsing it. -/
theorem gsubSeps_pathJoin_iff (parts : List Bytes) :
    gsubSeps isWindows (pathJoin isWindows parts) = pathJoin isWindows parts ↔ PartsFit parts := by
  rw [gsubSeps, collapse_eq_self_iff, apart_pathJoin_iff, and_iff_left_iff_imp]
  exact fun _ c hc hsep => eq_pathSep_of_mem isWindows hc hsep

theorem pathJoin_singleton (p : Bytes) : pathJoin isWindows [p] = gsubSeps isWindows p := by
  by_cases h : p = []
  · subst h
    rfl
  · simp [pathJoin, cleanParts, h]

theorem pathJoin_eq_nil_iff (parts : List Bytes) :
    pathJoin isWindows parts = [] ↔ cleanParts isWindows parts = [] := by
  constructor
  · intro h
    cases hc : cleanParts isWindows parts with
    | nil => rfl
    | cons p ps =>
        have hmem : p ∈ cleanParts isWindows parts := by
          rw [hc]
          exact List.mem_cons_self
        have hp : p ≠ [] := cleanParts_ne_nil isWindows p hmem
        have hhead : ([pathSep isWindows].intercalate (p :: ps)).head? = p.head? :=
          head_intercalate hp
        rw [pathJoin, hc] at h
        rw [h] at hhead
        exact absurd (List.head?_eq_none_iff.mp hhead.symm) hp
  · intro h
    rw [pathJoin, h]
    rfl

/-- A stretch of parts that fit may be joined first. -/
theorem pathJoin_stretch {xs ys zs : List Bytes} (h : PartsFit ys) :
    pathJoin isWindows (xs ++ pathJoin isWindows ys :: zs) = pathJoin isWindows (xs ++ (ys ++ zs)) := by
  have hone : cleanParts isWindows [pathJoin isWindows ys]
      = if pathJoin isWindows ys = [] then [] else [pathJoin isWindows ys] := by
    by_cases hnil : pathJoin isWindows ys = []
    · simp [cleanParts, hnil]
    · simp [cleanParts, hnil, (gsubSeps_pathJoin_iff isWindows ys).mpr h]
  have hjoin : ∀ parts, pathJoin isWindows parts
      = [pathSep isWindows].intercalate (cleanParts isWindows parts) := fun _ => rfl
  rw [← List.singleton_append, hjoin (xs ++ _), hjoin (xs ++ (ys ++ zs))]
  simp only [cleanParts_append, hone]
  by_cases hnil : pathJoin isWindows ys = []
  · rw [if_pos hnil, (pathJoin_eq_nil_iff isWindows ys).mp hnil]
  · rw [if_neg hnil, List.singleton_append, hjoin ys, intercalate_append_intercalate]
    exact fun hc => hnil ((pathJoin_eq_nil_iff isWindows ys).mpr hc)

end

/-- The path is a normal form: no two adjacent separators, unchanged when it is joined
again, and the same when any stretch of the parts is joined first. -/
structure Normal (isWindows : Bool) (parts : List Bytes) : Prop where
  apart : Apart IsSep (pathJoin isWindows parts)
  again : pathJoin isWindows [pathJoin isWindows parts] = pathJoin isWindows parts
  steps : ∀ xs ys zs : List Bytes, parts = xs ++ (ys ++ zs) →
    pathJoin isWindows (xs ++ pathJoin isWindows ys :: zs) = pathJoin isWindows parts

/-- **A path is a normal form exactly when the parts that are joined have no separator of
their own where they are.** -/
theorem normal_iff (isWindows : Bool) (parts : List Bytes) :
    Normal isWindows parts ↔ PartsFit parts := by
  constructor
  · exact fun h => (apart_pathJoin_iff isWindows parts).mp h.apart
  · intro h
    refine ⟨(apart_pathJoin_iff isWindows parts).mpr h, ?_, ?_⟩
    · rw [pathJoin_singleton, gsubSeps_pathJoin_iff]
      exact h
    · rintro xs ys zs rfl
      refine pathJoin_stretch isWindows ?_
      rw [PartsFit, List.filter_append, List.filter_append] at h
      exact (List.isChain_append.mp (List.isChain_append.mp h).2.1).1

/-- `a/` and `b`: joined, joined again, and joined to `c` in one step and in two. -/
theorem pathJoin_adjacent :
    pathJoin false [ascii "a/", ascii "b"] = ascii "a//b" ∧
      pathJoin false [pathJoin false [ascii "a/", ascii "b"]] = ascii "a/b" ∧
      pathJoin false [pathJoin false [ascii "a/", ascii "b"], ascii "c"] = ascii "a/b/c" ∧
      pathJoin false [ascii "a/", ascii "b", ascii "c"] = ascii "a//b/c" ∧
      ¬ Normal false [ascii "a/", ascii "b"] := by
  refine ⟨by decide, by decide, by decide, by decide, ?_⟩
  exact fun h => absurd h.again (by decide)

end Tmg.Nob
