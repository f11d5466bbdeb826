/-
# `Tmg.Nob.LuaLib` — what `nob.lua` leaves to Lua's library

| | pattern | |
| :-- | :-- | :-- |
| `nob.path_join` | `[/\]+` | `gsub`, by the separator |
| `Cmd:to_string` | a blank, a tab | `find` |
| `nob.get_c_dependencies` | `^.-:%s*` | `gsub`, by nothing |
| | a backslash and a newline | `gsub`, by a blank |
| | `%S+` | `gmatch` |

Each is run on the matcher, and comes out as the function that stands for it in the other
modules.  The three passes over the rule are one result, `parseDependencies_run`.
-/
import Tmg.Lua.Gsub
import Tmg.Nob.Dependencies
import Tmg.Nob.Path

namespace Tmg.Nob

open Lib Lua

/-! ## `nob.path_join` -/

theorem wellFormed_seps : WellFormed (ascii "[/\\]+") [.single (ascii "[/\\]") .plus] :=
  ⟨.cons rfl .nil, by decide, by decide⟩

/-- **The separators of a path are collapsed by the substitution.** -/
theorem gsub_seps (isWindows : Bool) (p : Bytes) :
    (gsub p (ascii "[/\\]+") (.str [pathSep isWindows]) none).map Prod.fst =
      .ok (gsubSeps isWindows p) := by
  have hsingle : ∀ c : Byte, singleMatch c (ascii "[/\\]") = decide (IsSep c) := by
    intro c
    have hset : ascii "[/\\]" = lbr :: ([47, bsl] ++ [rbr]) := by decide
    rw [hset, singleMatch_set]
    simp only [matchBracketClass, inSet, esc, bsl, IsSep, List.head?_cons, Option.some.injEq,
      eq_comm (b := c)]
    exact (Bool.decide_or _ _).symm
  have hnew : ∀ (n : Nat) (t e : Bytes),
      addValue p (.str [pathSep isWindows]) n [] t e = .ok [pathSep isWindows] := by
    intro n t e
    cases isWindows <;> rfl
  rw [gsub_plus wellFormed_seps (by decide) hsingle p hnew]
  simp [gsubSeps]

/-! ## `Cmd:to_string` -/

/-- A pattern of one ordinary byte is found where the byte is. -/
theorem find_byte {c : Byte} (hc : hasPattern [c] = false) (s : Bytes) :
    strFindAux true s [c] 1 false ≠ .ok .nil ↔ c ∈ s := by
  have hstart : startOffset s 1 = 0 := by simp [startOffset]
  rw [strFindAux, hstart, if_pos (by simp [hc]), findFixed, List.drop_zero, strFind_eq,
    ← List.singleton_infix_iff, ← isSome_firstAt_prefix]
  cases firstAt (fun t => decide ([c] <+: t)) s <;> simp

/-- **An argument is quoted if `find` finds a blank or a tab in it.** -/
theorem quoteArg_find (arg : Bytes) :
    quoteArg arg =
      if strFindAux true arg (ascii " ") 1 false ≠ .ok .nil ∨
          strFindAux true arg (ascii "\t") 1 false ≠ .ok .nil
        then ascii "\"" ++ arg ++ ascii "\"" else arg := by
  have hblank := find_byte (c := 32) (by decide) arg
  have htab := find_byte (c := 9) (by decide) arg
  rw [quoteArg]
  exact if_congr (or_congr hblank.symm htab.symm) rfl rfl

/-! ## `nob.get_c_dependencies` -/

/-- The items of `.-:%s*`. -/
def targetItems : List Item :=
  [.single (ascii ".") .lazy, .single (ascii ":") .one, .single (ascii "%s") .star]

theorem wellFormed_target : WellFormed (ascii ".-:%s*") targetItems :=
  ⟨.cons rfl (.cons rfl (.cons rfl .nil)), by decide, by decide⟩

/-- Whatever is in front, a colon has to come, and then blanks. -/
theorem allMatches_target (src s : Bytes) :
    allMatches src targetItems [] s = (runs (fun _ => true) s).flatMap fun t =>
      if t.head? = some 58 then (runs isspace t.tail).reverse.map fun e => (e, []) else [] := by
  have hdot : (fun c => singleMatch c (ascii ".")) = fun _ => true := rfl
  have hcolon : (fun c => singleMatch c (ascii ":")) = fun c => decide (c = 58) :=
    funext (singleMatch_byte (by decide) (by decide) (by decide))
  have hblank : (fun c => singleMatch c (ascii "%s")) = isspace := funext singleMatch_space
  simp only [targetItems, allMatches, Item.ways, Rep.ways, List.flatMap_map, hdot, hcolon, hblank]
  refine List.flatMap_congr fun t _ => ?_
  by_cases ht : t.head? = some 58
  · have hhere : (some (58 : Byte)).any (fun c => decide (c = 58)) = true := rfl
    rw [if_pos ht, ht, if_pos hhere, List.flatMap_singleton, List.map_eq_flatMap]
  · rw [if_neg ht, if_neg]
    · rfl
    · cases hhead : t.head? with
      | none => simp
      | some c => simpa [hhead] using ht

/-- The shortest stretch in front of a colon is the one in front of the first. -/
theorem matchAt_target (src s : Bytes) :
    matchAt src s (ascii ".-:%s*") = .ok (if 58 ∈ s
      then some ((s.dropWhile (· ≠ 58)).tail.dropWhile isspace, []) else none) := by
  rw [matchAt_finds wellFormed_target, allMatches_target]
  refine congrArg Except.ok ?_
  induction s with
  | nil => rfl
  | cons c s ih =>
      rw [runs_cons_pos rfl, List.flatMap_cons, List.head?_append, ih, List.head?_cons]
      by_cases hc : c = 58
      · subst hc
        rw [if_pos rfl, List.head?_map, List.tail_cons, head?_reverse_runs]
        simp
      · have hcolon : (58 : Byte) ∈ c :: s ↔ 58 ∈ s := by simp [Ne.symm hc]
        rw [if_neg (by simpa using hc), List.dropWhile_cons_of_pos (by simpa using hc),
          if_congr hcolon rfl rfl]
        rfl

/-- **The target of the rule is taken off.** -/
theorem gsub_target (result : Bytes) :
    (gsub result (ascii "^.-:%s*") (.str []) none).map Prod.fst = .ok (removeTarget result) := by
  have hanchor : anchored (cstr (ascii "^.-:%s*")) = (true, ascii ".-:%s*") := by decide
  have hone : ((0 : Nat) : Int) < result.length + 1 := by omega
  rw [gsub, hanchor, Option.getD_none]
  dsimp only
  rw [gsubLoop.eq_def, if_pos hone, matchAt_target, removeTarget]
  by_cases hcolon : 58 ∈ result
  · have hdrop : ((result.dropWhile (· ≠ 58)).tail.dropWhile isspace).length < result.length := by
      have hblanks := (List.dropWhile_suffix isspace (l := (result.dropWhile (· ≠ 58)).tail)).length_le
      have hfront := (List.dropWhile_suffix (fun c : Byte => decide (c ≠ 58)) (l := result)).length_le
      have hpos := List.length_pos_of_mem hcolon
      rw [List.length_tail] at hblanks
      omega
    rw [if_pos hcolon, if_pos hcolon]
    dsimp only [addValue, addS]
    rw [if_pos hdrop, if_pos rfl]
    rfl
  · rw [if_neg hcolon, if_neg hcolon]
    cases result <;> rfl

/-- The pattern of the second pass: a backslash and a newline. -/
def continuation : Bytes := [bsl, nl]

/-- **The lines of the rule are joined.** -/
theorem gsub_continuation (s : Bytes) :
    (gsub s continuation (.str (ascii " ")) none).map Prod.fst = .ok (joinLines s) := by
  have hanchor : anchored (cstr continuation) = (false, continuation) := by decide
  have hmatch : ∀ t, matchAt s t continuation =
      .ok (if continuation <+: t then some (t.drop continuation.length, []) else none) :=
    matchInit_plain s 1 [] (by decide)
  have hloop : ∀ (t : Bytes) (n : Nat), (n + t.length : Int) < s.length + 1 →
      ∃ k, gsubLoop s continuation (.str (ascii " ")) false (s.length + 1) n t = .ok (joinLines t, k) := by
    intro t
    have hnil : ∀ n, gsubLoop s continuation (.str (ascii " ")) false (s.length + 1) n [] = .ok ([], n) :=
      fun n => gsubLoop_nil (by rw [hmatch]; rfl)
    fun_induction joinLines t with
    | case1 => exact fun n _ => ⟨n, hnil n⟩
    | case2 c =>
        intro n hn
        rw [List.length_singleton] at hn
        refine ⟨n, ?_⟩
        rw [gsubLoop_kept (by omega) (by rw [hmatch]; simp [continuation]), hnil]
        rfl
    | case3 c d t h ih =>
        intro n hn
        simp only [List.length_cons] at hn
        push_cast at hn
        obtain ⟨rfl, rfl⟩ := h
        obtain ⟨k, hk⟩ := ih (n + 1) (by push_cast; omega)
        refine ⟨k, ?_⟩
        have hpre : continuation <+: bsl :: nl :: t := List.prefix_append continuation t
        have hhere := hmatch (bsl :: nl :: t)
        rw [if_pos hpre] at hhere
        have hlt : ((bsl :: nl :: t).drop continuation.length).length < (bsl :: nl :: t).length := by
          rw [List.length_drop]
          exact Nat.sub_lt (Nat.succ_pos _) (by decide)
        rw [gsubLoop_replaced (by omega) hhere hlt rfl]
        exact congrArg (Except.map _) hk
    | case4 c d t h ih =>
        intro n hn
        simp only [List.length_cons] at hn ih
        push_cast at hn ih
        obtain ⟨k, hk⟩ := ih n (by omega)
        refine ⟨k, ?_⟩
        have hne : ¬ continuation <+: c :: d :: t := by
          intro hpre
          obtain ⟨hc, hpre⟩ := List.cons_prefix_cons.mp hpre
          exact h ⟨hc.symm, (List.cons_prefix_cons.mp hpre).1.symm⟩
        rw [gsubLoop_kept (by omega) (by rw [hmatch, if_neg hne]), hk]
        rfl
  obtain ⟨k, hk⟩ := hloop s 0 (by omega)
  rw [gsub, hanchor, Option.getD_none]
  dsimp only
  rw [hk]
  rfl

theorem wellFormed_word : WellFormed (ascii "%S+") [.single (ascii "%S") .plus] :=
  ⟨.cons rfl .nil, by decide, by decide⟩

theorem gmatch_words (s : Bytes) :
    gmatch s (ascii "%S+") = .ok ((words isspace s).map fun w => [.str w]) := by
  have hpat : cstr (ascii "%S+") = ascii "%S+" := by decide
  have hmatch : ∀ t, matchAt s t (ascii "%S+") =
      .ok (if t.head?.any fun c => !isspace c then some (t.tail.dropWhile fun c => !isspace c, [])
        else none) := by
    intro t
    rw [matchAt_plus wellFormed_word, funext singleMatch_nonspace]
  rw [gmatch, hpat, gmatchLoop_plus hmatch]
  simp

/-- `nob.get_c_dependencies` on what was read from the command: the values of the loop. -/
def runPasses (result : Bytes) : Except PatError (List (List CapValue)) := do
  let r ← gsub result (ascii "^.-:%s*") (.str []) none
  let r ← gsub r.1 continuation (.str (ascii " ")) none
  gmatch r.1 (ascii "%S+")

/-- **The three passes give the list of the dependencies.** -/
theorem parseDependencies_run (result : Bytes) :
    runPasses result = .ok ((parseDependencies result).map fun w => [.str w]) := by
  obtain ⟨r, hr, htarget⟩ := map_eq_ok (gsub_target result)
  obtain ⟨q, hq, hlines⟩ := map_eq_ok (gsub_continuation r.1)
  show (gsub result (ascii "^.-:%s*") (.str []) none >>= fun r =>
    gsub r.1 continuation (.str (ascii " ")) none >>= fun r => gmatch r.1 (ascii "%S+")) = _
  rw [hr]
  show (gsub r.1 continuation (.str (ascii " ")) none >>= fun r => gmatch r.1 (ascii "%S+")) = _
  rw [hq]
  show gmatch q.1 (ascii "%S+") = _
  rw [gmatch_words, hlines, htarget]
  rfl

end Tmg.Nob
