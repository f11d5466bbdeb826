/-
# `Tmg.Latex.SpecTable` — the copy that `split_spec` makes

A table given as `spec` without a field `opts` is its own list of options.  `split_spec`
copies it twice over, its array part by index up to `table.maxn` and its other keys in the
order of `pairs`, and leaves out `args` and `opts`:

    { "t", nil, "b", width = "5cm", args = "2cm" }  ->  { [1] = "t", [3] = "b", width = "5cm" }

Here both tables are tables of `Tmg.Latex.Options`, with keys of any kind and holes, and
`specCopy` is the loops as they run.  The constructors of `Tmg.Latex.Build` have the rest of
the table as a list with holes and a list of fields (`OptTable.tab`), and `splitSpec` does not
copy.  The two agree: `splitSpec_table`.
-/
import Tmg.Latex.Options
import Tmg.Latex.Spellings

namespace Tmg.Latex

open Tmg Lib

/-! ## The copy -/

/-- The entries that `for i = 1, table.maxn(spec) do o[i] = spec[i] end` adds. -/
def arrayEntries (spec : OptTable) : List (OptKey × OptVal) :=
  (List.range' 1 (maxn spec)).filterMap fun i : Nat => (spec.get? (.int i)).map (.int i, ·)

/-- `type(k) == "string" and k ~= "args" and k ~= "opts"` -/
def OptKey.isOption : OptKey → Bool
  | str k => k ≠ ascii "args" && k ≠ ascii "opts"
  | _ => false

/-- The entries that the loop over `pairs(spec)` adds. -/
def optionEntries (spec : OptTable) : List (OptKey × OptVal) :=
  spec.entries.filter fun e => e.1.isOption

/-- `o`, the options of a `spec` without the field `opts`. -/
def specCopy (spec : OptTable) : OptTable :=
  (Keyed.empty.setAll (arrayEntries spec)).setAll (optionEntries spec)

theorem mem_arrayEntries {spec : OptTable} {key : OptKey} {v : OptVal} :
    (key, v) ∈ arrayEntries spec ↔
      (∃ i : Nat, 1 ≤ i ∧ key = .int i) ∧ spec.get? key = some v := by
  simp only [arrayEntries, List.mem_filterMap, List.mem_range'_1, Option.map_eq_some_iff,
    Prod.mk.injEq]
  constructor
  · rintro ⟨i, hi, w, hw, rfl, rfl⟩
    exact ⟨⟨i, hi.1, rfl⟩, hw⟩
  · rintro ⟨⟨i, hi, rfl⟩, hv⟩
    have hle := le_maxn (Option.isSome_iff_exists.mpr ⟨v, hv⟩)
    exact ⟨i, ⟨hi, by omega⟩, v, hv, rfl, rfl⟩

theorem mem_optionEntries {spec : OptTable} {key : OptKey} {v : OptVal} :
    (key, v) ∈ optionEntries spec ↔ key.isOption ∧ spec.get? key = some v := by
  rw [optionEntries, List.mem_filter, Keyed.get?_eq_some_iff, and_comm]

theorem nodup_arrayEntries (spec : OptTable) : ((arrayEntries spec).map Prod.fst).Nodup := by
  rw [arrayEntries, List.map_filterMap]
  refine (List.nodup_range' 1).filterMap fun i j key hi hj => ?_
  simp only [Option.mem_def, Option.map_eq_some_iff] at hi hj
  obtain ⟨_, ⟨_, _, rfl⟩, rfl⟩ := hi
  obtain ⟨_, ⟨_, _, rfl⟩, hij⟩ := hj
  exact (OptKey.int_natCast_inj hij).symm

/-- No key is copied by both loops. -/
theorem nodup_copied (spec : OptTable) :
    ((arrayEntries spec ++ optionEntries spec).map Prod.fst).Nodup := by
  rw [List.map_append, List.nodup_append']
  refine ⟨nodup_arrayEntries spec, spec.distinct.sublist (List.filter_sublist.map _), ?_⟩
  intro key harray hoption
  obtain ⟨⟨_, v⟩, he, rfl⟩ := List.mem_map.mp harray
  obtain ⟨⟨_, v'⟩, he', rfl⟩ := List.mem_map.mp hoption
  obtain ⟨⟨i, -, rfl⟩, -⟩ := mem_arrayEntries.mp he
  exact Bool.false_ne_true (mem_optionEntries.mp he').1

theorem entries_specCopy (spec : OptTable) :
    (specCopy spec).entries = arrayEntries spec ++ optionEntries spec := by
  have harray : (Keyed.empty.setAll (arrayEntries spec)).entries = arrayEntries spec :=
    Keyed.entries_setAll (nodup_arrayEntries spec)
  rw [specCopy, Keyed.entries_setAll (by rw [harray]; exact nodup_copied spec), harray]

/-- The copy has the array part of the `spec`, and its string keys but for `args` and `opts`. -/
theorem get?_specCopy {spec : OptTable} {key : OptKey} {v : OptVal} :
    (specCopy spec).get? key = some v ↔
      (key.isOption ∨ ∃ i : Nat, 1 ≤ i ∧ key = .int i) ∧ spec.get? key = some v := by
  rw [Keyed.get?_eq_some_iff, entries_specCopy, List.mem_append, mem_arrayEntries,
    mem_optionEntries, ← or_and_right, or_comm]

theorem get?_specCopy_congr {spec spec' : OptTable} (h : ∀ key, spec.get? key = spec'.get? key)
    (key : OptKey) : (specCopy spec).get? key = (specCopy spec').get? key :=
  Option.ext fun v => by rw [get?_specCopy, get?_specCopy, h]

theorem get?_specCopy_int (spec : OptTable) {i : Nat} (hi : 1 ≤ i) :
    (specCopy spec).get? (.int i) = spec.get? (.int i) :=
  Option.ext fun _ => get?_specCopy.trans (and_iff_right (.inr ⟨i, hi, rfl⟩))

/-! ## The table of the constructors -/

/-- The table but for `opts` and `args`, as the constructors have it. -/
def OptTable.tab (spec : OptTable) : OptTab where
  arr := (List.range' 1 (maxn spec)).map fun i : Nat => (spec.get? (.int i)).map OptVal.tostring
  fields := (fieldsOf spec).filter fun f => (OptKey.str f.1).isOption

theorem OptTable.tab_unreserved (spec : OptTable) : spec.tab.Unreserved := by
  intro f hf
  have hkey := (List.mem_filter.mp hf).2
  simp only [OptKey.isOption, Bool.and_eq_true, decide_eq_true_eq, ne_eq] at hkey
  exact ⟨hkey.2, hkey.1⟩

/-- The table with the field `args`, given as `spec`. -/
def OptTable.specTab (spec : OptTable) (a : ArgSpec) : SpecTab :=
  ⟨.nil, a, spec.tab, spec.tab_unreserved⟩

/-- `ipairs` stops at the first hole. -/
theorem ipairs_append : ∀ (xs : List Bytes) {rest : List (Option Bytes)},
    (∀ v vs, rest = v :: vs → v = none) → ipairs (xs.map some ++ rest) = xs
  | [], [], _ => rfl
  | [], v :: vs, h => by
      obtain rfl := h v vs rfl
      rfl
  | x :: xs, rest, h => congrArg (x :: ·) (ipairs_append xs h)

theorem ipairs_tab (spec : OptTable) :
    ipairs spec.tab.arr = (arrayPart spec).map OptVal.tostring := by
  obtain ⟨n, hn⟩ := exists_border spec
  have hle : n ≤ maxn spec := by
    rcases Nat.eq_zero_or_pos n with rfl | hpos
    · exact Nat.zero_le _
    · exact le_maxn (hn.filled n hpos le_rfl)
  obtain ⟨m, hm⟩ := Nat.exists_eq_add_of_le hle
  have hfront : (List.range' 1 n).map (fun i : Nat => (spec.get? (.int i)).map OptVal.tostring)
      = ((arrayPart spec).map OptVal.tostring).map some := by
    have hmap := congrArg (List.map (Option.map OptVal.tostring)) (arrayPart_map_some hn)
    rw [List.map_map, List.map_map] at hmap
    rw [List.map_map]
    exact hmap.symm
  rw [OptTable.tab, hm, ← List.range'_append_1, List.map_append, hfront]
  refine ipairs_append _ fun v vs hrest => ?_
  cases m with
  | zero => exact absurd hrest.symm (by simp)
  | succ m =>
      rw [List.range'_succ, List.map_cons, Nat.add_comm 1 n, hn.stop] at hrest
      exact (List.cons.inj hrest).1.symm

theorem fields_tab (spec : OptTable) :
    spec.tab.fields = (optionEntries spec).filterMap fun e => e.1.str?.map fun k => (k, e.2) := by
  rw [OptTable.tab, fieldsOf, optionEntries, List.filter_filterMap, List.filterMap_filter]
  refine List.filterMap_congr fun e _ => ?_
  obtain ⟨key, v⟩ := e
  cases key with
  | str k => rfl
  | int i => rfl
  | other id => rfl

theorem fieldsOf_specCopy (spec : OptTable) : fieldsOf (specCopy spec) = spec.tab.fields := by
  have harray : (arrayEntries spec).filterMap (fun e => e.1.str?.map fun k => (k, e.2)) = [] := by
    refine List.filterMap_eq_nil_iff.mpr fun e he => ?_
    obtain ⟨⟨i, -, hkey⟩, -⟩ := mem_arrayEntries.mp he
    rw [hkey]
    rfl
  rw [fieldsOf, entries_specCopy, List.filterMap_append, harray, List.nil_append, fields_tab]

/-- `fmt_opts` of the copy. -/
theorem fmtOptsTable_specCopy (spec : OptTable) :
    fmtOptsTable (specCopy spec) = fmtOpts spec.tab.copied.opts := by
  rw [fmtOptsTable_eq_fmtOpts, fmtOpts_copied, OptSpec.opts, ipairs_tab, fieldsOf_specCopy,
    arrayPart_congr fun _ => get?_specCopy_int spec]

/-! ## Nothing copied -/

theorem arrayEntries_eq_nil_iff {spec : OptTable} :
    arrayEntries spec = [] ↔ spec.tab.arr.all Option.isNone = true := by
  rw [arrayEntries, OptTable.tab, List.filterMap_eq_nil_iff, List.all_map, List.all_eq_true]
  refine forall₂_congr fun i _ => ?_
  rw [Function.comp_apply, Option.isNone_map, Option.map_eq_none_iff, Option.isNone_iff_eq_none]

theorem optionEntries_eq_nil_iff {spec : OptTable} :
    optionEntries spec = [] ↔ spec.tab.fields = [] := by
  rw [fields_tab]
  refine ⟨fun h => by rw [h]; rfl, fun h => List.eq_nil_iff_forall_not_mem.mpr ?_⟩
  rintro ⟨key, v⟩ he
  have hstr := List.filterMap_eq_nil_iff.mp h _ he
  have hopt := (mem_optionEntries.mp he).1
  cases key with
  | str k => exact absurd hstr (by simp [OptKey.str?])
  | int i => exact Bool.false_ne_true hopt
  | other id => exact Bool.false_ne_true hopt

/-- `next(o) ~= nil` -/
theorem copied_eq_nil_iff {spec : OptTable} :
    spec.tab.copied = .nil ↔ (specCopy spec).entries = [] := by
  rw [entries_specCopy, List.append_eq_nil_iff, arrayEntries_eq_nil_iff, optionEntries_eq_nil_iff,
    OptTab.copied, ← List.isEmpty_iff, ← Bool.and_eq_true]
  by_cases h : (spec.tab.arr.all Option.isNone && spec.tab.fields.isEmpty) = true
  · exact iff_of_true (if_pos h) h
  · refine iff_of_false ?_ h
    rw [if_neg h]
    exact nofun

/-- **The constructors have the options that `split_spec` copies**, in whatever order `pairs`
comes upon the entries of the `spec` and of the copy: none where nothing was copied, and else
the same list of options. -/
theorem splitSpec_table {spec spec' o : OptTable} (hspec : ∀ key, spec.get? key = spec'.get? key)
    (ho : ∀ key, o.get? key = (specCopy spec').get? key) (a : ArgSpec) :
    ∃ opts, splitSpec (.tab (spec.specTab a)) = .ok (opts, a) ∧ (opts = .nil ↔ o.entries = []) ∧
      fmtOpts opts.opts = fmtOptsTable o := by
  have hcopy : ∀ key, o.get? key = (specCopy spec).get? key := fun key =>
    (ho key).trans (get?_specCopy_congr hspec key).symm
  refine ⟨spec.tab.copied, rfl, ?_, ?_⟩
  · rw [copied_eq_nil_iff, List.eq_nil_iff_forall_not_mem, List.eq_nil_iff_forall_not_mem]
    exact forall_congr' fun e => not_congr (Keyed.mem_entries_congr hcopy e).symm
  · rw [← fmtOptsTable_specCopy]
    exact fmtOptsTable_congr ⟨fun i _ => (hcopy (.int i)).symm, fun k => (hcopy (.str k)).symm⟩

/-- `{ "t", nil, "b", args = "2cm", width = "5cm" }` -/
def holed : OptTable where
  entries := [(.int 1, .val (ascii "t")), (.int 3, .val (ascii "b")),
    (.str (ascii "args"), .val (ascii "2cm")), (.str (ascii "width"), .val (ascii "5cm"))]
  distinct := by decide

/-- Its `args` are left out, and `ipairs` stops at the hole. -/
theorem splitSpec_table_holed :
    (∃ opts, splitSpec (.tab (holed.specTab (.val (.str (ascii "2cm"))))) =
        .ok (opts, .val (.str (ascii "2cm"))) ∧ (opts = .nil ↔ (specCopy holed).entries = []) ∧
        fmtOpts opts.opts = fmtOptsTable (specCopy holed)) ∧
      fmtOptsTable (specCopy holed) = ascii "[t,width=5cm]" :=
  ⟨splitSpec_table (fun _ => rfl) (fun _ => rfl) _, by decide⟩

end Tmg.Latex
