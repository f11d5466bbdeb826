/-
# `Tmg.Latex.Options` — option lists, from the tables they are written as

`Tmg.Latex.Render` has the options of a node as an array part and a list of fields.  Here
they are the table that `fmt_opts` walks: keys of any kind, in the order in which `pairs`
comes upon them, which depends on how the table was filled.  Two tables that hold the same
entries have the same option list (`fmtOptsTable_eq`), since the keys are sorted and each
field is read again from the table.

A key is an integer, a string, or of another kind (a fraction, a boolean, a table), which
neither pass takes up.
-/
import Tmg.Lib.Keyed
import Tmg.Latex.Render

namespace Tmg.Latex

open Tmg Lib

/-- A key of a table. -/
inductive OptKey where
  | int (i : Int)
  | str (s : Bytes)
  | other (id : Nat)
deriving DecidableEq, Repr

theorem OptKey.int_natCast_inj {i j : Nat} (h : int i = int j) : i = j :=
  Int.ofNat_inj.mp (int.inj h)

/-- A table of options: its entries in the order of `pairs`. -/
abbrev OptTable := Keyed OptKey OptVal

/-- `tostring` -/
def OptVal.tostring : OptVal → Bytes
  | flag => ascii "true"
  | val text => text

/-- A key with `type(k) == "string"`. -/
def OptKey.str? : OptKey → Option Bytes
  | str s => some s
  | _ => none

/-! ## `fmt_opts` -/

/-- `ipairs(o)`, from the index `i` on: it stops at the first nil. -/
def arrayFrom (o : OptTable) : Nat → Nat → List OptVal
  | 0, _ => []
  | fuel + 1, i =>
      match o.get? (.int i) with
      | some v => v :: arrayFrom o fuel (i + 1)
      | none => []

/-- `ipairs(o)`.  There are no more elements than entries (`length_le_entries`). -/
def arrayPart (o : OptTable) : List OptVal := arrayFrom o o.entries.length 1

/-- The `keys` that the loop over `pairs(o)` collects. -/
def stringKeys (o : OptTable) : List Bytes := (o.entries.map Prod.fst).filterMap OptKey.str?

/-- `table.sort(keys)` -/
def sortedKeys (o : OptTable) : List Bytes := (stringKeys o).insertionSort fun a b => strLe a b

/-- `(v == true) and k or (k .. "=" .. tostring(v))`, for `v = o[k]`. -/
def keyPart (o : OptTable) (k : Bytes) : Bytes :=
  match o.get? (.str k) with
  | some v => fmtField (k, v)
  | none => k ++ ascii "=nil"

/-- `"[" .. table.concat(parts, ",") .. "]"`, or nothing. -/
def optList (parts : List Bytes) : Bytes :=
  if parts = [] then [] else bracketed (tableConcat (ascii ",") parts)

/-- `fmt_opts`, of a table. -/
def fmtOptsTable (o : OptTable) : Bytes :=
  optList ((arrayPart o).map OptVal.tostring ++ (sortedKeys o).map (keyPart o))

/-! ## The order of strings -/

theorem strLe_total : ∀ s t : Bytes, strLe s t ∨ strLe t s
  | [], _ => .inl rfl
  | _ :: _, [] => .inr rfl
  | a :: s, b :: t => by
      simp only [strLe]
      by_cases hab : a = b
      · simpa [hab] using strLe_total s t
      · simp only [hab, Ne.symm hab, if_false, decide_eq_true_eq]
        exact UInt8.lt_or_lt_of_ne hab

theorem strLe_trans : ∀ {s t u : Bytes}, strLe s t → strLe t u → strLe s u
  | [], _, _, _, _ => rfl
  | _ :: _, [], _, h, _ => by simp [strLe] at h
  | _ :: _, _ :: _, [], _, h => by simp [strLe] at h
  | a :: s, b :: t, c :: u, hst, htu => by
      simp only [strLe] at hst htu ⊢
      by_cases hab : a = b
      · subst hab
        by_cases hac : a = c
        · simp only [hac, if_true] at hst htu ⊢
          exact strLe_trans hst htu
        · simpa [hac] using htu
      · simp only [hab, if_false, decide_eq_true_eq] at hst
        have hac : a < c := by
          by_cases hbc : b = c
          · exact hbc ▸ hst
          · simp only [hbc, if_false, decide_eq_true_eq] at htu
            exact UInt8.lt_trans hst htu
        simp [UInt8.ne_of_lt hac, hac]

theorem strLe_antisymm : ∀ {s t : Bytes}, strLe s t → strLe t s → s = t
  | [], [], _, _ => rfl
  | [], _ :: _, _, h => by simp [strLe] at h
  | _ :: _, [], h, _ => by simp [strLe] at h
  | a :: s, b :: t, hst, hts => by
      simp only [strLe] at hst hts
      by_cases hab : a = b
      · simp only [hab, if_true] at hst hts
        rw [hab, strLe_antisymm hst hts]
      · simp only [hab, Ne.symm hab, if_false, decide_eq_true_eq] at hst hts
        exact absurd hts (UInt8.lt_asymm hst)

instance : Std.Total fun s t : Bytes => (strLe s t : Prop) := ⟨strLe_total⟩

instance : IsTrans Bytes fun s t : Bytes => (strLe s t : Prop) := ⟨fun _ _ _ => strLe_trans⟩

instance : Std.Antisymm fun s t : Bytes => (strLe s t : Prop) := ⟨fun _ _ => strLe_antisymm⟩

/-! ## The array part -/

/-- The array part is `1, …, n`, without a hole. -/
def ArrayLen (o : OptTable) (n : Nat) : Prop :=
  ∀ i : Nat, 1 ≤ i → ((o.get? (.int i)).isSome ↔ i ≤ n)

/-- `1, …, n` are there and `n + 1` is not. -/
structure Border (o : OptTable) (n : Nat) : Prop where
  filled : ∀ i : Nat, 1 ≤ i → i ≤ n → (o.get? (.int i)).isSome
  stop : o.get? (.int (n + 1 : Nat)) = none

theorem ArrayLen.border {o : OptTable} {n : Nat} (h : ArrayLen o n) : Border o n where
  filled i hi hin := (h i hi).mpr hin
  stop := by
    rw [← Option.not_isSome_iff_eq_none, h (n + 1) (by omega)]
    omega

/-- The index of a key of the array part. -/
def OptKey.index : OptKey → Nat
  | int i => i.toNat
  | _ => 0

/-- `table.maxn(o)`; a fraction among the keys would only add turns to a loop up to it, in which
there is nothing to copy. -/
def maxn (o : OptTable) : Nat := (o.entries.map fun e => e.1.index).max?.getD 0

theorem le_maxn {o : OptTable} {i : Nat} (h : (o.get? (.int i)).isSome) : i ≤ maxn o := by
  obtain ⟨v, hv⟩ := Option.isSome_iff_exists.mp h
  exact List.le_max?_getD_of_mem
    (List.mem_map_of_mem (f := fun e => e.1.index) (Keyed.get?_eq_some_iff.mp hv))

theorem exists_border (o : OptTable) : ∃ n, Border o n := by
  have hstop : ∃ n : Nat, o.get? (.int (n + 1 : Nat)) = none := by
    refine ⟨maxn o, ?_⟩
    rw [← Option.not_isSome_iff_eq_none]
    intro hsome
    have hle := le_maxn hsome
    omega
  refine ⟨Nat.find hstop, ?_, Nat.find_spec hstop⟩
  intro i hi hle
  have hmin := Nat.find_min hstop (m := i - 1) (by omega)
  rw [Nat.sub_add_cancel hi] at hmin
  exact Option.isSome_iff_ne_none.mpr hmin

theorem length_le_entries {o : OptTable} {n : Nat} (h : Border o n) : n ≤ o.entries.length := by
  have hnodup : ((List.range' 1 n).map fun i : Nat => OptKey.int i).Nodup :=
    (List.nodup_range' 1).map fun i j => OptKey.int_natCast_inj
  have hsub : ((List.range' 1 n).map fun i : Nat => OptKey.int i) ⊆ o.entries.map Prod.fst := by
    intro k hk
    obtain ⟨i, hi, rfl⟩ := List.mem_map.mp hk
    rw [List.mem_range'_1] at hi
    exact Keyed.isSome_get?_iff.mp (h.filled i hi.1 (by omega))
  simpa using (List.subperm_of_subset hnodup hsub).length_le

theorem arrayFrom_map_some {o : OptTable} {n : Nat} (h : Border o n) :
    ∀ fuel i m : Nat, 1 ≤ i → i + m = n + 1 → m ≤ fuel →
      (arrayFrom o fuel i).map some = (List.range' i m).map fun j : Nat => o.get? (.int j)
  | 0, _, 0, _, _, _ => rfl
  | fuel + 1, i, 0, hi, hm, _ => by
      obtain rfl : i = n + 1 := by omega
      simp only [arrayFrom, h.stop, List.map_nil, List.range'_zero]
  | fuel + 1, i, m + 1, hi, hm, hle => by
      obtain ⟨v, hv⟩ := Option.isSome_iff_exists.mp (h.filled i hi (by omega))
      have ih := arrayFrom_map_some h fuel (i + 1) m (by omega) (by omega) (by omega)
      simp only [arrayFrom, hv, List.map_cons, List.range'_succ, ih]

/-- `ipairs` comes upon the array part up to the first hole. -/
theorem arrayPart_map_some {o : OptTable} {n : Nat} (h : Border o n) :
    (arrayPart o).map some = (List.range' 1 n).map fun j : Nat => o.get? (.int j) :=
  arrayFrom_map_some h _ 1 n le_rfl (by omega) (length_le_entries h)

/-! ## The keys -/

theorem mem_stringKeys {o : OptTable} {k : Bytes} :
    k ∈ stringKeys o ↔ (o.get? (.str k)).isSome := by
  rw [Keyed.isSome_get?_iff, stringKeys, List.mem_filterMap]
  constructor
  · rintro ⟨key, hkey, hk⟩
    cases key with
    | str s => exact Option.some.inj hk ▸ hkey
    | int i => cases hk
    | other id => cases hk
  · exact fun hk => ⟨.str k, hk, rfl⟩

theorem nodup_stringKeys (o : OptTable) : (stringKeys o).Nodup := by
  refine o.distinct.filterMap fun key key' k hk hk' => ?_
  cases key <;> cases key' <;> simp_all [OptKey.str?]

theorem mem_sortedKeys {o : OptTable} {k : Bytes} :
    k ∈ sortedKeys o ↔ (o.get? (.str k)).isSome := by
  rw [sortedKeys, List.mem_insertionSort, mem_stringKeys]

/-- The keys ascend, and none comes twice. -/
theorem sortedKeys_pairwise (o : OptTable) :
    (sortedKeys o).Pairwise fun a b => strLe a b ∧ a ≠ b := by
  refine (List.pairwise_insertionSort _ _).and ?_
  exact (List.perm_insertionSort _ _).nodup_iff.mpr (nodup_stringKeys o)

/-! ## The fields of `Opts` -/

/-- The string keys with their values, in the order of `pairs`. -/
def fieldsOf (o : OptTable) : List (Bytes × OptVal) :=
  o.entries.filterMap fun e => e.1.str?.map fun k => (k, e.2)

theorem fieldsOf_fst (o : OptTable) : (fieldsOf o).map Prod.fst = stringKeys o := by
  simp only [fieldsOf, stringKeys, List.map_filterMap, List.filterMap_map]
  refine List.filterMap_congr fun e _ => ?_
  show (e.1.str?.map fun k => (k, e.2)).map Prod.fst = e.1.str?
  cases e.1.str? <;> rfl

theorem keyPart_of_mem {o : OptTable} {f : Bytes × OptVal} (hf : f ∈ fieldsOf o) :
    keyPart o f.1 = fmtField f := by
  obtain ⟨⟨key, v⟩, he, hk⟩ := List.mem_filterMap.mp hf
  cases key with
  | str k =>
      obtain rfl := Option.some.inj hk
      simp only [keyPart, Keyed.get?_eq_some_iff.mpr he]
  | int i => cases hk
  | other id => cases hk

/-- A table is rendered as its array part and its fields are by `fmtOpts`. -/
theorem fmtOptsTable_eq_fmtOpts (o : OptTable) :
    fmtOptsTable o = fmtOpts (.tab ((arrayPart o).map OptVal.tostring) (fieldsOf o)) := by
  have hkeys : sortedKeys o
      = ((fieldsOf o).insertionSort fun a b => strLe a.1 b.1).map Prod.fst := by
    rw [sortedKeys, ← fieldsOf_fst]
    exact (List.map_insertionSort _ _ Prod.fst _ fun _ _ _ _ => Iff.rfl).symm
  have hparts : (sortedKeys o).map (keyPart o)
      = ((fieldsOf o).insertionSort fun a b => strLe a.1 b.1).map fmtField := by
    rw [hkeys, List.map_map]
    refine List.map_congr_left fun f hf => ?_
    exact keyPart_of_mem ((List.mem_insertionSort _).mp hf)
  simp only [fmtOptsTable, optList, fmtOpts, hparts]

/-! ## Two tables -/

/-- The same array part and the same string-keyed fields. -/
structure SameOpts (o o' : OptTable) : Prop where
  arr : ∀ i : Nat, 1 ≤ i → o.get? (.int i) = o'.get? (.int i)
  str : ∀ k, o.get? (.str k) = o'.get? (.str k)

theorem Border.congr {o o' : OptTable} {n : Nat} (hn : Border o n)
    (h : ∀ i : Nat, 1 ≤ i → o.get? (.int i) = o'.get? (.int i)) : Border o' n where
  filled i hi hin := h i hi ▸ hn.filled i hi hin
  stop := h (n + 1) (by omega) ▸ hn.stop

theorem arrayPart_congr {o o' : OptTable}
    (h : ∀ i : Nat, 1 ≤ i → o.get? (.int i) = o'.get? (.int i)) : arrayPart o = arrayPart o' := by
  obtain ⟨n, hn⟩ := exists_border o
  refine List.map_injective_iff.mpr (Option.some_injective _) ?_
  rw [arrayPart_map_some hn, arrayPart_map_some (hn.congr h)]
  refine List.map_congr_left fun i hi => ?_
  exact h i (List.mem_range'_1.mp hi).1

theorem sortedKeys_congr {o o' : OptTable} (h : SameOpts o o') : sortedKeys o = sortedKeys o' :=
  insertionSort_eq (nodup_stringKeys o) (nodup_stringKeys o') fun k => by
    rw [mem_stringKeys, mem_stringKeys, h.str]

theorem fmtOptsTable_congr {o o' : OptTable} (h : SameOpts o o') :
    fmtOptsTable o = fmtOptsTable o' := by
  have hpart : keyPart o = keyPart o' := funext fun k => by simp only [keyPart, h.str]
  rw [fmtOptsTable, fmtOptsTable, arrayPart_congr h.arr, sortedKeys_congr h, hpart]

/-- However two tables of the same contents are enumerated, their option list is the same:
the array elements in order, then every string key once, ascending. -/
theorem fmtOptsTable_eq {o o' : OptTable} {n : Nat} (h : SameOpts o o') (hn : ArrayLen o n) :
    fmtOptsTable o = fmtOptsTable o' ∧
      ∃ (arr : List OptVal) (keys : List Bytes),
        (arr.map some = (List.range' 1 n).map fun i : Nat => o.get? (.int i)) ∧
        (keys.Pairwise fun a b => strLe a b ∧ a ≠ b) ∧
        (∀ k, k ∈ keys ↔ (o.get? (.str k)).isSome) ∧
        fmtOptsTable o = optList (arr.map OptVal.tostring ++ keys.map (keyPart o)) := by
  refine ⟨fmtOptsTable_congr h, arrayPart o, sortedKeys o, arrayPart_map_some hn.border, ?_, ?_, rfl⟩
  · exact sortedKeys_pairwise o
  · exact fun k => mem_sortedKeys

/-- `{ "t", width = "5cm" }` -/
def widthFirst : OptTable where
  entries := [(.str (ascii "width"), .val (ascii "5cm")), (.int 1, .val (ascii "t"))]
  distinct := by decide

/-- The same, filled in another order, and with a key that no pass takes up. -/
def widthLast : OptTable where
  entries := [(.int 1, .val (ascii "t")), (.other 0, .flag),
    (.str (ascii "width"), .val (ascii "5cm"))]
  distinct := by decide

theorem sameOpts_width : SameOpts widthFirst widthLast where
  arr i _ := Option.ext fun v => by
    rw [Keyed.get?_eq_some_iff, Keyed.get?_eq_some_iff]
    simp [widthFirst, widthLast]
  str k := Option.ext fun v => by
    rw [Keyed.get?_eq_some_iff, Keyed.get?_eq_some_iff]
    simp [widthFirst, widthLast]

theorem arrayLen_widthFirst : ArrayLen widthFirst 1 := by
  intro i hi
  rw [Keyed.isSome_get?_iff]
  simp [widthFirst]
  omega

theorem fmtOptsTable_width :
    fmtOptsTable widthFirst = fmtOptsTable widthLast ∧
      fmtOptsTable widthLast = ascii "[t,width=5cm]" :=
  ⟨(fmtOptsTable_eq sameOpts_width arrayLen_widthFirst).1, by decide⟩

end Tmg.Latex
