/-
# `Tmg.Lib.Keyed` — tables and the order of their entries

A hash table is enumerated in an order that depends on how it came about.  Here a table is
the list of its entries in that order, no key twice, so two tables with the same contents
(`get?`) are two lists that need not be the same.  What makes an enumeration independent of
the order is sorting: lists of the same elements, none of them twice, are the same list when
sorted (`insertionSort_eq`).
-/
import Mathlib.Data.List.Sort

namespace Tmg.Lib

/-- A finite table, with its entries in the order in which they are enumerated. -/
structure Keyed (κ ν : Type*) where
  entries : List (κ × ν)
  distinct : (entries.map Prod.fst).Nodup

namespace Keyed

variable {κ ν : Type*} [DecidableEq κ]

def empty : Keyed κ ν := ⟨[], List.nodup_nil⟩

/-- The value of a key. -/
def get? (t : Keyed κ ν) (k : κ) : Option ν := t.entries.lookup k

theorem get?_eq_some_iff {t : Keyed κ ν} {k : κ} {v : ν} :
    t.get? k = some v ↔ (k, v) ∈ t.entries := by
  obtain ⟨es, hes⟩ := t
  show es.lookup k = some v ↔ (k, v) ∈ es
  induction es with
  | nil => simp
  | cons e es ih =>
      rw [List.map_cons, List.nodup_cons] at hes
      rw [List.lookup_cons, List.mem_cons]
      by_cases hk : k = e.1
      · subst hk
        have hrest : (e.1, v) ∉ es := fun h => hes.1 (List.mem_map.mpr ⟨(e.1, v), h, rfl⟩)
        simp only [BEq.rfl, hrest, or_false, Option.some.injEq]
        exact ⟨fun h => h ▸ rfl, fun h => (congrArg Prod.snd h).symm⟩
      · have hne : (k, v) ≠ e := fun h => hk (congrArg Prod.fst h)
        simp only [beq_eq_false_iff_ne.mpr hk, hne, false_or]
        exact ih hes.2

theorem isSome_get?_iff {t : Keyed κ ν} {k : κ} :
    (t.get? k).isSome ↔ k ∈ t.entries.map Prod.fst := by
  rw [Option.isSome_iff_exists, List.mem_map]
  constructor
  · rintro ⟨v, hv⟩
    exact ⟨(k, v), get?_eq_some_iff.mp hv, rfl⟩
  · rintro ⟨⟨k, v⟩, he, rfl⟩
    exact ⟨v, get?_eq_some_iff.mpr he⟩

/-! ## Entries added -/

/-- An entry added behind the others, in the place of one with its key. -/
def set (t : Keyed κ ν) (k : κ) (v : ν) : Keyed κ ν where
  entries := t.entries.filter (·.1 ≠ k) ++ [(k, v)]
  distinct := by
    rw [List.map_append, List.nodup_append']
    refine ⟨t.distinct.sublist (List.filter_sublist.map _), List.nodup_singleton k, ?_⟩
    intro k' hk' hk
    obtain ⟨e, he, rfl⟩ := List.mem_map.mp hk'
    have hne := (List.mem_filter.mp he).2
    rw [List.map_singleton, List.mem_singleton] at hk
    exact absurd hk (by simpa using hne)

/-- Entries added one by one. -/
def setAll (t : Keyed κ ν) (es : List (κ × ν)) : Keyed κ ν :=
  es.foldl (fun t e => t.set e.1 e.2) t

theorem entries_set {t : Keyed κ ν} {k : κ} (hk : k ∉ t.entries.map Prod.fst) (v : ν) :
    (t.set k v).entries = t.entries ++ [(k, v)] := by
  have hall : t.entries.filter (·.1 ≠ k) = t.entries := by
    refine List.filter_eq_self.mpr fun e he => ?_
    have hne : e.1 ≠ k := fun h => hk (h ▸ List.mem_map_of_mem he)
    simpa using hne
  exact congrArg (· ++ [(k, v)]) hall

/-- New keys stand behind the old ones, in the order in which they are added. -/
theorem entries_setAll {es : List (κ × ν)} {t : Keyed κ ν}
    (h : ((t.entries ++ es).map Prod.fst).Nodup) : (t.setAll es).entries = t.entries ++ es := by
  induction es generalizing t with
  | nil => exact (List.append_nil _).symm
  | cons e es ih =>
      have hk : e.1 ∉ t.entries.map Prod.fst := by
        rw [List.map_append, List.map_cons, List.nodup_append'] at h
        exact fun hmem => h.2.2 hmem List.mem_cons_self
      have hset : (t.set e.1 e.2).entries ++ es = t.entries ++ e :: es := by
        rw [entries_set hk, List.append_assoc, List.singleton_append]
      show ((t.set e.1 e.2).setAll es).entries = _
      rw [ih (by rwa [hset]), hset]

/-- Tables with the same contents. -/
theorem mem_entries_congr {t t' : Keyed κ ν} (h : ∀ k, t.get? k = t'.get? k) (e : κ × ν) :
    e ∈ t.entries ↔ e ∈ t'.entries := by
  rw [← get?_eq_some_iff, ← get?_eq_some_iff, h]

end Keyed

/-! ## Sorting -/

/-- Lists of the same elements, none of them twice, are the same when sorted. -/
theorem insertionSort_eq {α : Type*} {r : α → α → Prop} [DecidableRel r] [Std.Total r] [IsTrans α r]
    [Std.Antisymm r] {l l' : List α} (hl : l.Nodup) (hl' : l'.Nodup) (h : ∀ a, a ∈ l ↔ a ∈ l') :
    l.insertionSort r = l'.insertionSort r := by
  have hperm : l.Perm l' := (List.perm_ext_iff_of_nodup hl hl').mpr h
  have hsorted : (l.insertionSort r).Perm (l'.insertionSort r) :=
    (List.perm_insertionSort r l).trans (hperm.trans (List.perm_insertionSort r l').symm)
  exact hsorted.eq_of_pairwise' (List.pairwise_insertionSort r l) (List.pairwise_insertionSort r l')

end Tmg.Lib
