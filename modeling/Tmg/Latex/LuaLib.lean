/-
# `Tmg.Latex.LuaLib` — what `latex.lua` leaves to Lua's library

`latex.lua` leaves its work on strings to Lua's patterns, and sorts the keys of an option list
with `table.sort`:

| | pattern | |
| :-- | :-- | :-- |
| `escape` | `[\&%%$#_{}~^]` | `gsub`, by the table `ESC` |
| `R.item` and `R.list` | `^%s+` | `gsub`, by nothing |
| `shq` | `'` | `gsub`, by `'\''` |
| `L.compile` | `^(.*)/([^/]*)$` | `match` |
| `verb_check` | the end of the environment | a plain `find` |

Here each is run on the matcher, and the sort on the quicksort of the library; what comes out
is the function that stands for it in the other modules.
-/
import Tmg.Lua.Gsub
import Tmg.Lua.StrCmp
import Tmg.Latex.Compile
import Tmg.Latex.Options
import Tmg.Latex.Verbatim

namespace Tmg.Latex

open Lib Lua

/-! ## `escape` -/

/-- The pattern of `escape`. -/
def escapePattern : Bytes := ascii "[\\&%%$#_{}~^]"

/-- The table `ESC`. -/
def escTable : CapValue → Option Bytes
  | .str [c] => esc? c
  | _ => none

theorem wellFormed_escape : WellFormed escapePattern [.single escapePattern .one] :=
  ⟨.cons rfl .nil, by decide, by decide⟩

/-- The class has the characters that the table has. -/
theorem singleMatch_escape (c : Byte) : singleMatch c escapePattern = (esc? c).isSome := by
  have hset : escapePattern =
      lbr :: ([bsl, 38, 37, 37, 36, 35, 95, 123, 125, 126, 94] ++ [rbr]) := by decide
  have hpercent : matchClass c 37 = decide (37 = c) := rfl
  have hkeys : (esc? c).isSome =
      decide (c ∈ ([bsl, 38, 37, 36, 35, 95, 123, 125, 126, 94] : Bytes)) := by
    have hplain : ascii "&%$#_\x7b\x7d" = [38, 37, 36, 35, 95, 123, 125] := by decide
    rw [esc?]
    split_ifs <;> simp_all
    tauto
  rw [hset, singleMatch_set, hkeys]
  simp [matchBracketClass, inSet, esc, bsl, hpercent, eq_comm]

/-- **`escape` is the substitution.** -/
theorem gsub_escape (s : Bytes) :
    (gsub s escapePattern (.tab escTable) none).map Prod.fst = .ok (escape s) := by
  have hnew : ∀ n c e, (esc? c).isSome = true →
      addValue s (.tab escTable) n [] (c :: e) e = .ok ((esc? c).getD [c]) := by
    intro n c e _
    simp [addValue, pushOnecapture, upTo, Except.map, escTable]
  rw [gsub_one wellFormed_escape (by decide) singleMatch_escape s hnew]
  refine congrArg Except.ok (congrArg s.flatMap (funext fun c => ?_))
  cases hc : esc? c <;> simp

/-! ## `:gsub("^%s+", "")` -/

theorem wellFormed_blanks : WellFormed (ascii "%s+") [.single (ascii "%s") .plus] :=
  ⟨.cons rfl .nil, by decide, by decide⟩

theorem singleMatch_blank (c : Byte) : singleMatch c (ascii "%s") = isSpace c := singleMatch_space c

/-- **The blanks at the beginning are taken off.** -/
theorem gsub_stripLeft (s : Bytes) :
    (gsub s (ascii "^%s+") (.str []) none).map Prod.fst = .ok (stripLeft s) := by
  rw [gsub_plus_anchored wellFormed_blanks (by decide) singleMatch_blank s (fun _ _ _ => rfl)]
  refine congrArg Except.ok ?_
  cases s with
  | nil => rfl
  | cons c s => cases hc : isSpace c <;> simp [stripLeft, hc]

/-! ## `shq` -/

theorem wellFormed_quote : WellFormed (ascii "'") [.single (ascii "'") .one] :=
  ⟨.cons rfl .nil, by decide, by decide⟩

/-- **`shq` is the substitution, in quotes.** -/
theorem gsub_shq (s : Bytes) :
    (gsub s (ascii "'") (.str (ascii "'\\''")) none).map
        (fun r => ascii "'" ++ r.1 ++ ascii "'") = .ok (shq s) := by
  have hsingle : ∀ c : Byte, singleMatch c (ascii "'") = decide (c = 39) :=
    singleMatch_byte (by decide) (by decide) (by decide)
  have hnew : ∀ (n : Nat) (c : Byte) (e : Bytes), decide (c = 39) = true →
      addValue s (.str (ascii "'\\''")) n [] (c :: e) e = .ok (ascii "'\\''") := fun _ _ _ _ => rfl
  obtain ⟨r, hr, hfst⟩ := map_eq_ok (gsub_one wellFormed_quote (by decide) hsingle s hnew)
  rw [hr]
  simp [Except.map, shq, hfst]

/-! ## `path:match` -/

/-- The pattern of `L.compile`. -/
def pathPattern : Bytes := ascii "^(.*)/([^/]*)$"

/-- Its items from the `/` on. -/
def slashItems : List Lua.Item :=
  [.single (ascii "/") .one, .opened, .single (ascii "[^/]") .star, .closed, .atEnd]

theorem wellFormed_path :
    WellFormed pathPattern.tail (.opened :: .single (ascii ".") .star :: .closed :: slashItems) :=
  have hslash : Parses (ascii "/([^/]*)$") slashItems :=
    .cons rfl (.cons rfl (.cons rfl (.cons rfl (.cons rfl .nil))))
  ⟨.cons rfl (.cons rfl (.cons rfl hslash)), by decide, by decide⟩

theorem allMatches_slash_ne {src t : Bytes} {caps : List Capture} (h : t.head? ≠ some 47) :
    allMatches src slashItems caps t = [] := by
  have hsingle : ∀ c : Byte, singleMatch c (ascii "/") = decide (c = 47) :=
    singleMatch_byte (by decide) (by decide) (by decide)
  cases t with
  | nil => simp [slashItems, allMatches, Item.ways, Rep.ways]
  | cons c t =>
      have hc : c ≠ 47 := by simpa using h
      simp [slashItems, allMatches, Item.ways, Rep.ways, hsingle, hc]

/-- Behind the last `/` the rest of the path is the file. -/
theorem head?_allMatches_slash {src dir file : Bytes} {n : Nat} (h : 47 ∉ file) :
    (allMatches src slashItems [⟨dir, .closed n⟩] (47 :: file)).head? =
      some ([], [⟨dir, .closed n⟩, ⟨file, .closed file.length⟩]) := by
  have hslash : singleMatch 47 (ascii "/") = true := by decide
  have hsingle : ∀ c : Byte, singleMatch c (ascii "[^/]") = decide (c ≠ 47) :=
    singleMatch_except (by decide)
  have hrun : file.dropWhile (fun c => singleMatch c (ascii "[^/]")) = [] := by
    rw [List.dropWhile_eq_nil_iff]
    intro c hc
    rw [hsingle, decide_eq_true_iff]
    rintro rfl
    exact h hc
  have hlongest := head?_reverse_runs (f := fun c => singleMatch c (ascii "[^/]")) file
  rw [hrun] at hlongest
  obtain ⟨ts, hts⟩ := List.head?_eq_some_iff.mp hlongest
  simp only [slashItems, allMatches, Item.ways, Rep.ways, List.head?_cons, Option.any_some, hslash,
    if_true, List.tail_cons, List.map_cons, List.map_nil, List.flatMap_map, hts, List.flatMap_cons,
    List.head?_append]
  rfl

/-- `.*` is tried with the longest first. -/
theorem allMatches_path (path : Bytes) :
    allMatches path (.opened :: .single (ascii ".") .star :: .closed :: slashItems) [] path =
      (runs (fun c => singleMatch c (ascii ".")) path).reverse.flatMap fun t =>
        allMatches path slashItems [⟨path, .closed (path.length - t.length)⟩] t := by
  simp only [allMatches, Item.ways, Rep.ways, List.flatMap_map, List.flatMap_singleton]
  refine List.flatMap_congr fun t _ => ?_
  show List.flatMap _ [_] = _
  rw [List.flatMap_singleton]
  rfl

theorem head?_allMatches_path {dir file : Bytes} (h : 47 ∉ file) :
    (allMatches (dir ++ 47 :: file) (.opened :: .single (ascii ".") .star :: .closed :: slashItems) []
        (dir ++ 47 :: file)).head? =
      some ([], [⟨dir ++ 47 :: file, .closed dir.length⟩, ⟨file, .closed file.length⟩]) := by
  have hdot : ∀ c : Byte, singleMatch c (ascii ".") = true := fun _ => rfl
  obtain ⟨l, hl⟩ := runs_append (f := fun c => singleMatch c (ascii ".")) (w := dir)
    (fun c _ => hdot c) (47 :: file)
  have hlen : (dir ++ 47 :: file).length - (47 :: file).length = dir.length := by simp
  -- in the file there is no slash
  have hfile : ((runs (fun c => singleMatch c (ascii ".")) file).reverse.flatMap fun t =>
      allMatches (dir ++ 47 :: file) slashItems
        [⟨dir ++ 47 :: file, .closed ((dir ++ 47 :: file).length - t.length)⟩] t) = [] := by
    rw [List.flatMap_eq_nil_iff]
    intro t ht
    obtain ⟨w, rfl, -⟩ := mem_runs.mp (List.mem_reverse.mp ht)
    refine allMatches_slash_ne fun hhead => h ?_
    exact List.mem_append_right w (List.mem_of_mem_head? hhead)
  rw [allMatches_path, hl, runs_cons_pos (f := fun c => singleMatch c (ascii ".")) (hdot 47), List.reverse_append, List.reverse_cons,
    List.flatMap_append, List.flatMap_append, hfile, List.nil_append, List.flatMap_singleton,
    List.head?_append, hlen, head?_allMatches_slash h]
  rfl

/-- **The path is taken apart at its last slash.** -/
theorem match_path (path : Bytes) :
    strFindAux false path pathPattern 1 false = .ok
      (match matchPath path with
        | none => .nil
        | some (dir, file) => .matched [.str dir, .str file]) := by
  have hanchor : anchored (cstr pathPattern) = (true, pathPattern.tail) := by decide
  have hstart : startOffset path 1 = 0 := by simp [startOffset]
  have hloop : ∀ s : Bytes, searchLoop path pathPattern.tail true s =
      .ok ((allMatches path (.opened :: .single (ascii ".") .star :: .closed :: slashItems) [] s).head?.map
        fun m => (s, m)) := by
    intro s
    cases s with
    | nil => rw [searchLoop, matchAt_finds wellFormed_path]
    | cons c s =>
        rw [searchLoop, matchAt_finds wellFormed_path]
        cases (allMatches path _ [] (c :: s)).head? <;> rfl
  rw [strFindAux, hstart, if_neg (by simp), findPattern, hanchor, List.drop_zero]
  dsimp only
  rw [hloop]
  by_cases hslash : 47 ∈ path
  · obtain ⟨dir, file, rfl, hfile⟩ := exists_last_slash hslash
    rw [head?_allMatches_path hfile, matchPath_slash hfile]
    have hdir : (dir ++ 47 :: file).take dir.length = dir := by simp
    have hrest : file.take file.length = file := List.take_length
    show (Except.ok [.str _, .str _] : Except PatError (List CapValue)).map _ = _
    rw [hdir, hrest]
    rfl
  · have hnone : allMatches path (.opened :: .single (ascii ".") .star :: .closed :: slashItems) [] path = [] := by
      rw [allMatches_path, List.flatMap_eq_nil_iff]
      intro t ht
      obtain ⟨w, rfl, -⟩ := mem_runs.mp (List.mem_reverse.mp ht)
      refine allMatches_slash_ne fun hhead => hslash ?_
      exact List.mem_append_right w (List.mem_of_mem_head? hhead)
    rw [hnone, matchPath, if_neg hslash]
    rfl

/-! ## `verb_check` -/

/-- A plain `find` tells whether the one is in the other. -/
theorem find_plain_nil (s pat : Bytes) :
    strFindAux true s pat 1 true = .ok .nil ↔ ¬ pat <:+: s := by
  have hstart : startOffset s 1 = 0 := by simp [startOffset]
  rw [strFindAux, hstart, if_pos (by simp), findFixed, List.drop_zero, strFind_eq,
    ← isSome_firstAt_prefix]
  cases firstAt (fun t => decide (pat <+: t)) s <;> simp

/-- **`verb_check` refuses what the plain `find` finds.** -/
theorem verbCheck_find (s name : Bytes) :
    verbCheck s name =
      if strFindAux true s (endTag name) 1 true = .ok .nil then .ok () else .error ⟨name⟩ := by
  rw [verbCheck]
  by_cases h : endTag name <:+: s
  · rw [if_pos h, if_neg fun hnil => (find_plain_nil s _).mp hnil h]
  · rw [if_neg h, if_pos ((find_plain_nil s _).mpr h)]

/-! ## `table.sort(keys)` -/

theorem strLe_iff : ∀ {s t : Bytes}, strLe s t = true ↔ s ≤ t
  | [], t => iff_of_true rfl (List.nil_le t)
  | a :: s, [] => iff_of_false (by simp [strLe]) (fun h => h (List.nil_lt_cons a s))
  | a :: s, b :: t => by
      rw [strLe, List.cons_le_cons_iff]
      by_cases hab : a = b
      · simp [hab, strLe_iff (s := s) (t := t)]
      · simp [hab]

/-- **The keys are sorted by the quicksort**, the strings being compared four bytes at a time. -/
theorem sort_keys (o : OptTable) (keys : List GCstr) (hkeys : keys.map GCstr.bytes = stringKeys o) :
    ∃ sorted, sort strLess keys = .ok sorted ∧ sorted.map GCstr.bytes = sortedKeys o := by
  obtain ⟨sorted, hsort, hordered⟩ := exists_sort weakOrder_strLess keys
  refine ⟨sorted, hsort, ?_⟩
  have hperm : (sorted.map GCstr.bytes).Perm (sortedKeys o) := by
    rw [sortedKeys, ← hkeys]
    exact ((perm_of_sort hsort).map _).trans (List.perm_insertionSort _ _).symm
  refine List.Perm.eq_of_pairwise ?_ ?_ (List.pairwise_insertionSort _ _) hperm
  · exact fun s t _ _ hst hts => strLe_antisymm hst hts
  · rw [List.pairwise_map]
    exact hordered.imp fun h => strLe_iff.mpr (strLess_eq_false_iff.mp h)

theorem sort_keys_two :
    ∃ sorted, sort strLess [⟨1, fun _ => 98, by decide⟩, ⟨1, fun _ => 97, by decide⟩] = .ok sorted ∧
      sorted.map GCstr.bytes = sortedKeys ⟨[(.str [98], .flag), (.str [97], .flag)], by decide⟩ :=
  sort_keys _ _ rfl

end Tmg.Latex
