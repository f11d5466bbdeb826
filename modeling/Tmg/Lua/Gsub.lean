/-
# `Tmg.Lua.Gsub` — patterns of one character class

Most patterns of the libraries are one class of characters, alone or with a `+`.  What the
string functions make of these is said here once, whatever the class is:

| | |
| :-- | :-- |
| `gsub` of a class | every byte of the class is replaced (`gsubLoop_one`) |
| `gsub` of a run | every maximal run is replaced (`gsubLoop_plus`) |
| `gsub` of a run behind `^` | the run at the beginning is replaced (`gsubLoop_plus_anchored`) |
| `gmatch` of a run | the words of the subject (`gmatchLoop_plus`) |

Each comes from one turn of the loop, `gsubLoop_kept` or `gsubLoop_replaced`, and from what
the matcher finds at one place.
-/
import Tmg.Lua.StrLib
import Tmg.Lib.Collapse
import Tmg.Lib.Words

namespace Tmg.Lua

open Lib

variable {src p : Bytes} {repl : Repl} {maxS : Int} {n : Nat}

/-! ## Single characters -/

theorem singleMatch_byte {x : Byte} (hdot : x ≠ 46) (hesc : x ≠ esc) (hset : x ≠ lbr) (c : Byte) :
    singleMatch c [x] = decide (c = x) := by
  rw [singleMatch, if_neg hdot, if_neg hesc, if_neg hset, decide_eq_decide]
  exact eq_comm

theorem singleMatch_space (c : Byte) : singleMatch c (ascii "%s") = isspace c := isa_space c

theorem singleMatch_nonspace (c : Byte) : singleMatch c (ascii "%S") = !isspace c :=
  congrArg (!·) (isa_space c)

theorem singleMatch_set (set : Bytes) (c : Byte) :
    singleMatch c (lbr :: (set ++ [rbr])) = matchBracketClass c set := by
  have hdot : lbr ≠ 46 := by decide
  have hesc : lbr ≠ esc := by decide
  rw [singleMatch, if_neg hdot, if_neg hesc, if_pos rfl, List.dropLast_concat]

/-- Every byte but one. -/
theorem singleMatch_except {b : Byte} (hb : b ≠ esc) (c : Byte) :
    singleMatch c (lbr :: ([94, b] ++ [rbr])) = decide (c ≠ b) := by
  have hset : matchBracketClass c [94, b] = !decide (b = c) := by
    simp [matchBracketClass, inSet, hb]
  rw [singleMatch_set, hset, ← decide_not]
  exact decide_eq_decide.mpr ne_comm

/-! ## One place -/

theorem matchAt_one {item : Bytes} (h : WellFormed p [.single item .one]) (s : Bytes) :
    matchAt src s p =
      .ok (if s.head?.any fun c => singleMatch c item then some (s.tail, []) else none) := by
  rw [matchAt_finds h, allMatches, Item.ways, Rep.ways]
  split <;> rfl

theorem matchAt_plus {item : Bytes} (h : WellFormed p [.single item .plus]) (s : Bytes) :
    matchAt src s p = .ok (if s.head?.any fun c => singleMatch c item
      then some (s.tail.dropWhile fun c => singleMatch c item, []) else none) := by
  rw [matchAt_finds h, allMatches, Item.ways, Rep.ways]
  split
  · rw [List.flatMap_map]
    have hlongest := head?_reverse_runs (f := fun c => singleMatch c item) s.tail
    cases hruns : (runs (fun c => singleMatch c item) s.tail).reverse with
    | nil => simp [hruns] at hlongest
    | cons t ts =>
        rw [hruns, List.head?_cons] at hlongest
        obtain rfl := Option.some.inj hlongest
        rfl
  · rfl

/-! ## One turn of `gsub` -/

/-- A byte is kept at which there is no match. -/
theorem gsubLoop_kept (hn : (n : Int) < maxS) {c : Byte} {s : Bytes}
    (hmatch : matchAt src (c :: s) p = .ok none) :
    gsubLoop src p repl false maxS n (c :: s) =
      (gsubLoop src p repl false maxS n s).map fun r => (c :: r.1, r.2) := by
  rw [gsubLoop.eq_def, if_pos hn, hmatch]
  rfl

/-- A match of some bytes is replaced. -/
theorem gsubLoop_replaced (hn : (n : Int) < maxS) {s e new : Bytes} {caps : List Capture}
    (hmatch : matchAt src s p = .ok (some (e, caps))) (hlt : e.length < s.length)
    (hnew : addValue src repl n caps s e = .ok new) :
    gsubLoop src p repl false maxS n s =
      (gsubLoop src p repl false maxS (n + 1) e).map fun r => (new ++ r.1, r.2) := by
  rw [gsubLoop.eq_def, if_pos hn, hmatch]
  dsimp only
  rw [hnew]
  dsimp only
  rw [if_pos hlt, if_neg Bool.false_ne_true]

theorem gsubLoop_nil {anchor : Bool} (hmatch : matchAt src [] p = .ok none) :
    gsubLoop src p repl anchor maxS n [] = .ok ([], n) := by
  rw [gsubLoop, hmatch]
  split <;> rfl

/-! ## Substitutions -/

section

variable {f : Byte → Bool}

/-- A class: each of its bytes is replaced. -/
theorem gsubLoop_one {g : Byte → Bytes}
    (hmatch : ∀ s, matchAt src s p = .ok (if s.head?.any f then some (s.tail, []) else none))
    (hnew : ∀ n c s, f c = true → addValue src repl n [] (c :: s) s = .ok (g c)) (s : Bytes)
    (hn : (n + s.length : Int) < maxS) :
    gsubLoop src p repl false maxS n s =
      .ok (s.flatMap fun c => if f c then g c else [c], n + s.countP f) := by
  induction s generalizing n with
  | nil => exact gsubLoop_nil (hmatch [])
  | cons c s ih =>
      rw [List.length_cons] at hn
      push_cast at hn
      cases hc : f c with
      | true =>
          have hhere : matchAt src (c :: s) p = .ok (some (s, [])) := by simp [hmatch, hc]
          have hrest : ((n + 1 : Nat) + s.length : Int) < maxS := by
            push_cast
            omega
          rw [gsubLoop_replaced (by omega) hhere (by simp) (hnew n c s hc), ih hrest]
          simp only [Except.map, List.flatMap_cons, hc, if_true, List.countP_cons, Except.ok.injEq,
            Prod.mk.injEq, true_and]
          omega
      | false =>
          have hhere : matchAt src (c :: s) p = .ok none := by simp [hmatch, hc]
          rw [gsubLoop_kept (by omega) hhere, ih (by omega)]
          simp [Except.map, hc]

/-- A run of a class: each maximal one is replaced. -/
theorem gsubLoop_plus {a : Byte}
    (hmatch : ∀ s, matchAt src s p =
      .ok (if s.head?.any f then some (s.tail.dropWhile f, []) else none))
    (hnew : ∀ n s e, addValue src repl n [] s e = .ok [a]) (s : Bytes)
    (hn : (n + s.length : Int) < maxS) :
    ∃ k, gsubLoop src p repl false maxS n s = .ok (collapse (fun c => f c = true) a s, k) := by
  induction hlen : s.length using Nat.strong_induction_on generalizing s n with
  | h len ih =>
      subst hlen
      cases s with
      | nil => exact ⟨n, gsubLoop_nil (hmatch [])⟩
      | cons c s =>
          rw [List.length_cons] at hn
          push_cast at hn
          cases hc : f c with
          | true =>
              have hhere : matchAt src (c :: s) p = .ok (some (s.dropWhile f, [])) := by
                simp [hmatch, hc]
              have hle := (List.dropWhile_suffix f (l := s)).length_le
              have hlt : (s.dropWhile f).length < (c :: s).length := Nat.lt_succ_of_le hle
              obtain ⟨k, hk⟩ := ih _ hlt (n := n + 1) (s.dropWhile f) (by push_cast; omega) rfl
              refine ⟨k, ?_⟩
              rw [gsubLoop_replaced (by omega) hhere hlt (hnew n _ _), hk,
                collapse_cons_pos (p := fun c => f c = true) hc]
              simp only [Except.map, List.singleton_append, Bool.decide_eq_true]
          | false =>
              have hhere : matchAt src (c :: s) p = .ok none := by simp [hmatch, hc]
              obtain ⟨k, hk⟩ := ih _ (Nat.lt_succ_self _) (n := n) s (by omega) rfl
              refine ⟨k, ?_⟩
              rw [gsubLoop_kept (by omega) hhere, hk, collapse_cons_neg (by simp [hc])]
              rfl

/-- A run of a class at the beginning of the subject. -/
theorem gsubLoop_plus_anchored {new : Bytes} (hn : (n : Int) < maxS)
    (hmatch : ∀ s, matchAt src s p =
      .ok (if s.head?.any f then some (s.tail.dropWhile f, []) else none))
    (hnew : ∀ n s e, addValue src repl n [] s e = .ok new) (s : Bytes) :
    ∃ k, gsubLoop src p repl true maxS n s =
      .ok (if s.head?.any f then new ++ s.dropWhile f else s, k) := by
  cases s with
  | nil => exact ⟨n, gsubLoop_nil (hmatch [])⟩
  | cons c s =>
      cases hc : f c with
      | true =>
          have hhere : matchAt src (c :: s) p = .ok (some (s.dropWhile f, [])) := by simp [hmatch, hc]
          have hle := (List.dropWhile_suffix f (l := s)).length_le
          have hlt : (s.dropWhile f).length < (c :: s).length := Nat.lt_succ_of_le hle
          refine ⟨n + 1, ?_⟩
          rw [gsubLoop, if_pos hn, hhere]
          dsimp only
          rw [hnew]
          dsimp only
          rw [if_pos hlt, if_pos rfl, List.dropWhile_cons_of_pos hc]
          simp [hc]
      | false =>
          have hhere : matchAt src (c :: s) p = .ok none := by simp [hmatch, hc]
          refine ⟨n, ?_⟩
          rw [gsubLoop, if_pos hn, hhere]
          simp [hc]

/-- Every byte of a class is replaced by a text of its own. -/
theorem gsub_one {item : Bytes} {g : Byte → Bytes} (hp : WellFormed p [.single item .one])
    (hanchor : anchored (cstr p) = (false, p)) (hf : ∀ c, singleMatch c item = f c) (s : Bytes)
    (hnew : ∀ n c e, f c = true → addValue s repl n [] (c :: e) e = .ok (g c)) :
    (gsub s p repl none).map Prod.fst = .ok (s.flatMap fun c => if f c then g c else [c]) := by
  have hmatch : ∀ t, matchAt s t p = .ok (if t.head?.any f then some (t.tail, []) else none) := by
    intro t
    rw [matchAt_one hp, funext hf]
  have hturns : (((0 : Nat) : Int) + s.length) < s.length + 1 := by omega
  have hloop := gsubLoop_one hmatch hnew s hturns
  rw [gsub, hanchor, Option.getD_none]
  dsimp only
  rw [hloop]
  rfl

/-- Every run of a class is replaced by one byte. -/
theorem gsub_plus {item : Bytes} {a : Byte} (hp : WellFormed p [.single item .plus])
    (hanchor : anchored (cstr p) = (false, p)) (hf : ∀ c, singleMatch c item = f c) (s : Bytes)
    (hnew : ∀ n t e, addValue s repl n [] t e = .ok [a]) :
    (gsub s p repl none).map Prod.fst = .ok (collapse (fun c => f c = true) a s) := by
  have hmatch : ∀ t, matchAt s t p =
      .ok (if t.head?.any f then some (t.tail.dropWhile f, []) else none) := by
    intro t
    rw [matchAt_plus hp, funext hf]
  have hturns : (((0 : Nat) : Int) + s.length) < s.length + 1 := by omega
  obtain ⟨k, hloop⟩ := gsubLoop_plus hmatch hnew s hturns
  rw [gsub, hanchor, Option.getD_none]
  dsimp only
  rw [hloop]
  rfl

/-- The run of a class at the beginning is replaced. -/
theorem gsub_plus_anchored {q item new : Bytes} (hp : WellFormed p [.single item .plus])
    (hanchor : anchored (cstr q) = (true, p)) (hf : ∀ c, singleMatch c item = f c) (s : Bytes)
    (hnew : ∀ n t e, addValue s repl n [] t e = .ok new) :
    (gsub s q repl none).map Prod.fst =
      .ok (if s.head?.any f then new ++ s.dropWhile f else s) := by
  have hmatch : ∀ t, matchAt s t p =
      .ok (if t.head?.any f then some (t.tail.dropWhile f, []) else none) := by
    intro t
    rw [matchAt_plus hp, funext hf]
  have hturns : ((0 : Nat) : Int) < s.length + 1 := by omega
  obtain ⟨k, hloop⟩ := gsubLoop_plus_anchored hturns hmatch hnew s
  rw [gsub, hanchor, Option.getD_none]
  dsimp only
  rw [hloop]
  rfl

/-! ## The words of `gmatch` -/

theorem searchLoop_plus
    (hmatch : ∀ s, matchAt src s p =
      .ok (if s.head?.any f then some (s.tail.dropWhile f, []) else none)) (s : Bytes) :
    searchLoop src p false s =
      match s.dropWhile (!f ·) with
      | [] => .ok none
      | c :: t => .ok (some (c :: t, t.dropWhile f, [])) := by
  induction s with
  | nil => simp [searchLoop, hmatch]
  | cons c s ih =>
      rw [searchLoop, hmatch]
      cases hc : f c with
      | true => simp [hc]
      | false => simpa [hc] using ih

theorem gmatchLoop_none {s : Bytes} (h : searchLoop src p false s = .ok none) :
    gmatchLoop src p s = .ok [] := by
  unfold gmatchLoop
  split <;> simp_all

/-- Behind a match of some bytes the next turn begins. -/
theorem gmatchLoop_some {s t e : Bytes} {caps : List Capture} {vals : List CapValue}
    (h : searchLoop src p false s = .ok (some (t, e, caps)))
    (hvals : pushCaptures src caps true t e = .ok vals) (hlt : e.length < t.length) :
    gmatchLoop src p s = (gmatchLoop src p e).map (vals :: ·) := by
  rw [gmatchLoop.eq_def]
  split
  · next hs => exact absurd (h.symm.trans hs) (by simp)
  · next hs => exact absurd (h.symm.trans hs) (by simp)
  · next hs =>
      obtain ⟨rfl, hm⟩ := Prod.mk.inj (Option.some.inj (Except.ok.inj (h.symm.trans hs)))
      obtain ⟨rfl, rfl⟩ := Prod.mk.inj hm
      rw [hvals]
      dsimp only
      rw [dif_pos hlt]

/-- A loop over the runs of a class is given the words of the subject. -/
theorem gmatchLoop_plus
    (hmatch : ∀ s, matchAt src s p =
      .ok (if s.head?.any f then some (s.tail.dropWhile f, []) else none)) (s : Bytes) :
    gmatchLoop src p s = .ok ((words (!f ·) s).map fun w => [.str w]) := by
  induction hlen : s.length using Nat.strong_induction_on generalizing s with
  | h len ih =>
      subst hlen
      have hfind := searchLoop_plus hmatch s
      have hle := (List.dropWhile_suffix (!f ·) (l := s)).length_le
      rw [← words_dropWhile]
      cases hs : s.dropWhile (!f ·) with
      | nil =>
          rw [hs] at hfind
          rw [gmatchLoop_none hfind]
          rfl
      | cons c t =>
          have hc : f c = true := by
            have hhead := List.head?_dropWhile_not (!f ·) s
            rw [hs] at hhead
            simpa using hhead
          have ht := (List.dropWhile_suffix f (l := t)).length_le
          rw [hs] at hfind hle
          have hlt : (t.dropWhile f).length < (c :: t).length := Nat.lt_succ_of_le ht
          have hword : c :: t = (c :: t.takeWhile f) ++ t.dropWhile f := by
            rw [List.cons_append, List.takeWhile_append_dropWhile]
          have hupTo : upTo (c :: t) (t.dropWhile f) = c :: t.takeWhile f := by
            conv_lhs => rw [hword]
            rw [upTo_append]
          have hvals : pushCaptures src [] true (c :: t) (t.dropWhile f) =
              .ok [.str (c :: t.takeWhile f)] := hupTo ▸ rfl
          have hends : ∀ d ∈ (t.dropWhile f).head?, (!f d) = true := by
            intro d hd
            have hhead := List.head?_dropWhile_not f t
            rw [Option.mem_def.mp hd] at hhead
            simpa using hhead
          rw [gmatchLoop_some hfind hvals hlt, ih _ (hlt.trans_le hle) _ rfl, hword,
            words_append (by simp) _ hends]
          · rfl
          · intro d hd
            rcases List.mem_cons.mp hd with rfl | hd
            · simp [hc]
            · simp [List.mem_takeWhile_imp hd]

end

end Tmg.Lua
