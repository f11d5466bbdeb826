/-
# `Tmg.Nob.Dependencies` — `nob.get_c_dependencies`

The compiler is asked for the files that a source depends on, and prints them as a rule
for make.  In the rule the names are separated by blanks and by backslashes at the end of
a line, and a blank in a name has a backslash before it:

    main.o: main.c my\ file.h \
     /usr/include/stdio.h

What is printed is taken apart in three passes.  The first takes the text up to the first
colon away, the second turns each backslash before a newline into a blank, and the third
returns the runs of bytes that are no blanks.  No pass looks at a backslash before a blank,
so of the rule above the second name comes back as `my\` and `file.h`.

`getCDependencies_iff` says for which names the list is returned that was printed.
-/
import Tmg.Report
import Tmg.Nob.Append
import Tmg.Lib.Words

namespace Tmg.Nob

open Lib

variable {ν : Type*}

/-! ## The function -/

/-- `result:gsub("^.-:%s*", "")` -/
def removeTarget (result : Bytes) : Bytes :=
  if 58 ∈ result then (result.dropWhile (· ≠ 58)).tail.dropWhile isspace else result

/-- `result:gsub("\\\n", " ")` -/
def joinLines : Bytes → Bytes
  | [] => []
  | [c] => [c]
  | c :: d :: s => if c = bsl ∧ d = nl then 32 :: joinLines s else c :: joinLines (d :: s)

/-- `result:gmatch("%S+")`, on what the two substitutions leave. -/
def parseDependencies (result : Bytes) : List Bytes :=
  words isspace (joinLines (removeTarget result))

/-- `nob.cmd():append(cc, "-M", source, cflags)` -/
def dependencyCommand (fmt : ν → Bytes) (cc source : Bytes) (cflags : AppendArg ν) : Cmd :=
  Cmd.append fmt ⟨[]⟩ [.string cc, .string (ascii "-M"), .string source, cflags]

/-- `nob.get_c_dependencies`, where `popen` is what the command prints that is given to
`io.popen`, if it is started. -/
def getCDependencies (popen : Bytes → Option Bytes) (fmt : ν → Bytes) (cc source : Bytes)
    (cflags : AppendArg ν) : List Bytes :=
  match popen (dependencyCommand fmt cc source cflags).toString with
  | none => [source]
  | some result => parseDependencies result

/-! ## The rule -/

/-- What separates the names of a rule. -/
inductive Separator where
  | blank
  | tab
  | continuation
deriving DecidableEq, Repr

/-- A separator as it is printed. -/
def Separator.text : Separator → Bytes
  | blank => [32]
  | tab => [9]
  | continuation => [bsl, nl]

/-- A name of a rule, with what separates it from what stands before it. -/
structure Dependency where
  before : List Separator
  separated : before ≠ []
  name : Bytes

/-- A name as it is printed. -/
def escapeName (name : Bytes) : Bytes :=
  name.flatMap fun c => if c = 32 ∨ c = 9 then [bsl, c] else [c]

/-- The names of a rule, to the end of the line. -/
def ruleBody (deps : List Dependency) : Bytes :=
  (deps.flatMap fun d => d.before.flatMap Separator.text ++ escapeName d.name) ++ [nl]

/-- The rule as it is printed. -/
def makeRule (target : Bytes) (deps : List Dependency) : Bytes :=
  target ++ ascii ":" ++ ruleBody deps

/-- The rule can be taken apart by the three passes: no colon in the target, no blank in a
name, none of them empty, and no backslash at the end of the line. -/
structure ReadableRule (target : Bytes) (names : List Bytes) : Prop where
  noColon : 58 ∉ target
  noBlank : ∀ n ∈ names, n ≠ [] ∧ ∀ c ∈ n, isspace c = false
  last : ∀ n ∈ names.getLast?, n.getLast? ≠ some bsl

/-! ## The second pass -/

theorem joinLines_cons {c : Byte} (hc : c ≠ bsl) (s : Bytes) :
    joinLines (c :: s) = c :: joinLines s := by
  cases s with
  | nil => rfl
  | cons d s => rw [joinLines, if_neg (fun h => hc h.1)]

theorem joinLines_continuation (s : Bytes) : joinLines (bsl :: nl :: s) = 32 :: joinLines s := by
  rw [joinLines, if_pos ⟨rfl, rfl⟩]

/-- It works on pieces that are not cut between a backslash and a newline. -/
theorem joinLines_append :
    ∀ {s : Bytes} (t : Bytes), s.getLast? ≠ some bsl ∨ t.head? ≠ some nl →
      joinLines (s ++ t) = joinLines s ++ joinLines t
  | [], _, _ => rfl
  | [c], [], _ => rfl
  | [c], d :: t, h => by
      have hcut : ¬ (c = bsl ∧ d = nl) := by
        rintro ⟨rfl, rfl⟩
        exact h.elim (fun hn => hn rfl) (fun hn => hn rfl)
      show joinLines (c :: d :: t) = c :: joinLines (d :: t)
      rw [joinLines, if_neg hcut]
  | c :: d :: s, t, h => by
      rw [List.cons_append, List.cons_append, joinLines, joinLines]
      by_cases hcut : c = bsl ∧ d = nl
      · have hs : s.getLast? ≠ some bsl ∨ t.head? ≠ some nl := by
          cases s with
          | nil => exact .inl (by simp)
          | cons e s => simpa using h
        rw [if_pos hcut, if_pos hcut, joinLines_append t hs, List.cons_append]
      · have hs : (d :: s).getLast? ≠ some bsl ∨ t.head? ≠ some nl := by simpa using h
        have ih := joinLines_append t hs
        rw [List.cons_append] at ih
        rw [if_neg hcut, if_neg hcut, ih, List.cons_append]

theorem joinLines_of_not_mem {s : Bytes} (h : nl ∉ s) : joinLines s = s := by
  induction s with
  | nil => rfl
  | cons c s ih =>
      have hs : nl ∉ s := fun hs => h (List.mem_cons_of_mem c hs)
      have happend := joinLines_append (s := [c]) s (.inr fun hh => hs (List.mem_of_head? hh))
      rw [List.singleton_append] at happend
      rw [happend, ih hs]
      rfl

theorem isspace_ne_bsl {c : Byte} (h : isspace c = true) : c ≠ bsl := by
  rintro rfl
  exact absurd h (by decide)

/-- Blanks at the beginning make no difference to the words. -/
theorem words_joinLines_dropWhile (s : Bytes) :
    words isspace (joinLines (s.dropWhile isspace)) = words isspace (joinLines s) := by
  induction s with
  | nil => rfl
  | cons c s ih =>
      by_cases hc : isspace c = true
      · rw [List.dropWhile_cons_of_pos hc, ih, joinLines_cons (isspace_ne_bsl hc), words_cons hc]
      · rw [List.dropWhile_cons_of_neg hc]

/-! ## The words of a rule -/

/-- Names are separated by blanks when the lines are joined. -/
theorem separators_head {seps : List Separator} (hne : seps ≠ []) (s : Bytes) :
    ∃ c t, isspace c = true ∧ joinLines (seps.flatMap Separator.text ++ s) = c :: t ∧
      words isspace t = words isspace (joinLines s) := by
  have hone : ∀ (sep : Separator) (u : Bytes), ∃ c, isspace c = true ∧
      joinLines (sep.text ++ u) = c :: joinLines u := by
    intro sep u
    cases sep with
    | blank => exact ⟨32, rfl, joinLines_cons (by decide) u⟩
    | tab => exact ⟨9, rfl, joinLines_cons (by decide) u⟩
    | continuation => exact ⟨32, rfl, joinLines_continuation u⟩
  induction seps with
  | nil => exact absurd rfl hne
  | cons sep seps ih =>
      rw [List.flatMap_cons, List.append_assoc]
      obtain ⟨c, hc, heq⟩ := hone sep (seps.flatMap Separator.text ++ s)
      refine ⟨c, _, hc, heq, ?_⟩
      cases seps with
      | nil => rfl
      | cons sep' seps =>
          obtain ⟨c', t, hc', heq', ht⟩ := ih (List.cons_ne_nil sep' seps)
          rw [heq', words_cons hc', ht]

theorem ruleBody_cons (d : Dependency) (deps : List Dependency) :
    ruleBody (d :: deps)
      = d.before.flatMap Separator.text ++ (escapeName d.name ++ ruleBody deps) := by
  simp [ruleBody, List.append_assoc]

/-- The rest of a rule begins with a blank. -/
theorem ruleBody_head (deps : List Dependency) :
    ∃ c t, isspace c = true ∧ joinLines (ruleBody deps) = c :: t ∧
      words isspace t = words isspace (joinLines (ruleBody deps)) := by
  cases deps with
  | nil => exact ⟨nl, [], rfl, rfl, rfl⟩
  | cons d deps =>
      rw [ruleBody_cons]
      obtain ⟨c, t, hc, heq, ht⟩ := separators_head d.separated (escapeName d.name ++ ruleBody deps)
      exact ⟨c, t, hc, heq, by rw [heq, words_cons hc]⟩

/-- Behind a name that is not the last stands no newline. -/
theorem ruleBody_head_ne {deps : List Dependency} (h : deps ≠ []) :
    (ruleBody deps).head? ≠ some nl := by
  obtain ⟨d, deps, rfl⟩ := List.exists_cons_of_ne_nil h
  obtain ⟨sep, seps, hseps⟩ := List.exists_cons_of_ne_nil d.separated
  rw [ruleBody_cons, hseps]
  cases sep <;> simp [Separator.text, nl, bsl]

/-- A text in front of the rest of a rule. -/
theorem words_append_ruleBody (s : Bytes) (deps : List Dependency)
    (h : s.getLast? ≠ some bsl ∨ (ruleBody deps).head? ≠ some nl) :
    words isspace (joinLines (s ++ ruleBody deps))
      = words isspace (joinLines s) ++ words isspace (joinLines (ruleBody deps)) := by
  obtain ⟨c, t, hc, heq, ht⟩ := ruleBody_head deps
  rw [joinLines_append _ h, ← ht, heq, words_append_cons hc]

theorem escapeName_of_noBlank {n : Bytes} (h : ∀ c ∈ n, isspace c = false) : escapeName n = n := by
  induction n with
  | nil => rfl
  | cons c n ih =>
      rw [List.forall_mem_cons] at h
      have hc : ¬ (c = 32 ∨ c = 9) := by
        rintro (rfl | rfl) <;> exact absurd h.1 (by decide)
      rw [escapeName, List.flatMap_cons, if_neg hc]
      exact congrArg (c :: ·) (ih h.2)

theorem nl_not_mem_of_noBlank {n : Bytes} (h : ∀ c ∈ n, isspace c = false) : nl ∉ n :=
  fun hmem => absurd (h nl hmem) (by decide)

/-- A name without blanks that is followed by another is one word. -/
theorem words_ruleBody_cons {d : Dependency} {deps : List Dependency} (hne : d.name ≠ [])
    (hd : ∀ c ∈ d.name, isspace c = false)
    (h : d.name.getLast? ≠ some bsl ∨ (ruleBody deps).head? ≠ some nl) :
    words isspace (joinLines (ruleBody (d :: deps)))
      = d.name :: words isspace (joinLines (ruleBody deps)) := by
  rw [ruleBody_cons, escapeName_of_noBlank hd]
  obtain ⟨c, t, hc, heq, ht⟩ := separators_head d.separated (d.name ++ ruleBody deps)
  rw [heq, words_cons hc, ht, words_append_ruleBody _ _ h,
    joinLines_of_not_mem (nl_not_mem_of_noBlank hd), words_of_forall_not hne hd]
  rfl

/-- The words of a rule are its names, if it does not end with a backslash. -/
theorem words_ruleBody {deps : List Dependency}
    (h : ∀ d ∈ deps, d.name ≠ [] ∧ ∀ c ∈ d.name, isspace c = false)
    (hlast : ∀ n ∈ (deps.map Dependency.name).getLast?, n.getLast? ≠ some bsl) :
    words isspace (joinLines (ruleBody deps)) = deps.map Dependency.name := by
  induction deps with
  | nil => rfl
  | cons d deps ih =>
      rw [List.forall_mem_cons] at h
      obtain ⟨⟨hne, hd⟩, hdeps⟩ := h
      have hend : d.name.getLast? ≠ some bsl ∨ (ruleBody deps).head? ≠ some nl := by
        by_cases hnil : deps = []
        · subst hnil
          exact .inl (hlast d.name (by simp))
        · exact .inr (ruleBody_head_ne hnil)
      have hrest : ∀ n ∈ (deps.map Dependency.name).getLast?, n.getLast? ≠ some bsl := by
        intro n hn
        refine hlast n ?_
        rw [List.map_cons, List.getLast?_cons, Option.mem_def.mp hn]
        rfl
      rw [words_ruleBody_cons hne hd hend, ih hdeps hrest]
      rfl

theorem words_ruleBody_append {init rest : List Dependency} (hrest : rest ≠ [])
    (h : ∀ d ∈ init, d.name ≠ [] ∧ ∀ c ∈ d.name, isspace c = false) :
    words isspace (joinLines (ruleBody (init ++ rest)))
      = init.map Dependency.name ++ words isspace (joinLines (ruleBody rest)) := by
  induction init with
  | nil => rfl
  | cons d init ih =>
      rw [List.forall_mem_cons] at h
      obtain ⟨⟨hne, hd⟩, hinit⟩ := h
      have hhead := ruleBody_head_ne (List.append_ne_nil_of_right_ne_nil init hrest)
      rw [List.cons_append, words_ruleBody_cons hne hd (.inr hhead), ih hinit]
      rfl

/-- A backslash at the end of the rule is lost. -/
theorem words_ruleBody_backslash {d : Dependency} {n : Bytes} (hd : d.name = n ++ [bsl])
    (hn : ∀ c ∈ n, isspace c = false) :
    words isspace (joinLines (ruleBody [d])) = words isspace n := by
  have hname : ∀ c ∈ d.name, isspace c = false := by
    rw [hd, List.forall_mem_append]
    exact ⟨hn, by decide⟩
  have hlast : joinLines (n ++ [bsl, nl]) = n ++ [32] := by
    rw [joinLines_append [bsl, nl] (.inr (by decide)), joinLines_of_not_mem (nl_not_mem_of_noBlank hn)]
    rfl
  rw [ruleBody_cons, escapeName_of_noBlank hname, hd]
  obtain ⟨c, t, hc, heq, ht⟩ := separators_head d.separated (n ++ [bsl] ++ ruleBody [])
  have hbody : n ++ [bsl] ++ ruleBody [] = n ++ [bsl, nl] := by simp [ruleBody]
  rw [heq, words_cons hc, ht, hbody, hlast, words_append_cons (by decide), words_nil, List.append_nil]

/-! ## The rule taken apart -/

/-- What is left of a rule: words from a target with a colon, and those of its names. -/
theorem parseDependencies_makeRule (target : Bytes) (deps : List Dependency) :
    ∃ extra, parseDependencies (makeRule target deps)
        = extra ++ words isspace (joinLines (ruleBody deps)) ∧
      (58 ∉ target → extra = []) ∧ (58 ∈ target → ∃ w ∈ extra, 58 ∈ w) := by
  have hdrop : ∀ s u : Bytes, 58 ∉ s → parseDependencies (s ++ 58 :: u) = words isspace (joinLines u) := by
    intro s u hs
    have hcut : (s ++ 58 :: u).dropWhile (· ≠ 58) = 58 :: u := by
      rw [List.dropWhile_append_of_pos, List.dropWhile_cons_of_neg (by simp)]
      intro c hc
      have hne : c ≠ 58 := fun h => hs (h ▸ hc)
      simpa using hne
    rw [parseDependencies, removeTarget, if_pos (by simp), hcut, List.tail_cons,
      words_joinLines_dropWhile]
  have hrule : makeRule target deps = target ++ 58 :: ruleBody deps := by simp [makeRule, ascii]
  rw [hrule]
  by_cases htarget : 58 ∈ target
  · obtain ⟨s, u, rfl, hs⟩ := List.eq_append_cons_of_mem htarget
    refine ⟨words isspace (joinLines (u ++ [58])), ?_, fun h => absurd htarget h, fun _ => ?_⟩
    · have hsplit : s ++ 58 :: u ++ 58 :: ruleBody deps = s ++ 58 :: (u ++ [58] ++ ruleBody deps) := by
        simp
      rw [hsplit, hdrop s _ hs, words_append_ruleBody _ _ (.inl (by simp [bsl]))]
    · refine exists_mem_words ?_ (by decide)
      rw [joinLines_append [58] (.inr (by decide))]
      exact List.mem_append_right _ List.mem_cons_self
  · exact ⟨[], hdrop target _ htarget, fun _ => rfl, fun h => absurd h htarget⟩

theorem parseDependencies_iff (target : Bytes) (deps : List Dependency) :
    parseDependencies (makeRule target deps) = deps.map Dependency.name ↔
      ReadableRule target (deps.map Dependency.name) := by
  obtain ⟨extra, hparse, hnone, hsome⟩ := parseDependencies_makeRule target deps
  constructor
  · intro heq
    have hnames : ∀ d ∈ deps, d.name ≠ [] ∧ ∀ c ∈ d.name, isspace c = false := by
      intro d hd
      have hmem : d.name ∈ parseDependencies (makeRule target deps) :=
        heq ▸ List.mem_map_of_mem hd
      exact mem_words hmem
    rw [heq] at hparse
    have hlast : ∀ n ∈ (deps.map Dependency.name).getLast?, n.getLast? ≠ some bsl := by
      intro n hn hbsl
      obtain ⟨init, d, rfl⟩ : ∃ init d, deps = init ++ [d] := by
        rcases List.eq_nil_or_concat' deps with rfl | h
        · exact absurd hn (by simp)
        · exact h
      obtain rfl : d.name = n := by simpa using hn
      obtain ⟨m, hm⟩ := List.getLast?_eq_some_iff.mp hbsl
      rw [List.forall_mem_append] at hnames
      have hblank : ∀ c ∈ m, isspace c = false := by
        have hd := (hnames.2 d List.mem_cons_self).2
        rw [hm, List.forall_mem_append] at hd
        exact hd.1
      rw [words_ruleBody_append (List.cons_ne_nil d []) hnames.1, words_ruleBody_backslash hm hblank,
        List.map_append, List.map_singleton, hm] at hparse
      by_cases hnil : m = []
      · -- the words are one too few, and a colon would have to be the name that is missing
        subst hnil
        rw [words_nil, List.append_nil] at hparse
        have hperm : extra.Perm [[bsl]] := by
          have hleft : (init.map Dependency.name ++ extra).Perm
              (init.map Dependency.name ++ [[bsl]]) := by
            rw [List.nil_append] at hparse
            rw [hparse]
            exact List.perm_append_comm
          exact (List.perm_append_left_iff _).mp hleft
        rw [List.perm_singleton.mp hperm] at hnone hsome
        by_cases htarget : 58 ∈ target
        · obtain ⟨w, hw, h58⟩ := hsome htarget
          rw [List.mem_singleton.mp hw] at h58
          exact absurd h58 (by decide)
        · exact absurd (hnone htarget) (by simp)
      · rw [words_of_forall_not hnil hblank, ← List.append_assoc] at hparse
        have htail := (List.append_inj' hparse rfl).2
        exact absurd htail (by simp)
    refine ⟨fun htarget => ?_, by simpa using hnames, hlast⟩
    obtain ⟨w, hw, -⟩ := hsome htarget
    rw [words_ruleBody hnames hlast] at hparse
    have hnil : extra = [] := by simpa using hparse.symm
    exact absurd (hnil ▸ hw) (by simp)
  · intro h
    rw [hparse, hnone h.noColon, List.nil_append]
    exact words_ruleBody (by simpa using h.noBlank) h.last

/-- **The list that the compiler printed is returned exactly when the rule is readable.** -/
theorem getCDependencies_iff (popen : Bytes → Option Bytes) (fmt : ν → Bytes) (cc source : Bytes)
    (cflags : AppendArg ν) (target : Bytes) (deps : List Dependency)
    (hprinted : popen (dependencyCommand fmt cc source cflags).toString
      = some (makeRule target deps)) :
    getCDependencies popen fmt cc source cflags = deps.map Dependency.name ↔
      ReadableRule target (deps.map Dependency.name) := by
  rw [getCDependencies, hprinted]
  exact parseDependencies_iff target deps

/-- A source and a header, on two lines. -/
theorem getCDependencies_header :
    let deps : List Dependency :=
      [⟨[.blank], by decide, ascii "main.c"⟩, ⟨[.blank, .continuation, .blank], by decide, ascii "a.h"⟩]
    let popen : Bytes → Option Bytes := fun command =>
      if command = ascii "gcc -M main.c" then some (makeRule (ascii "main.o") deps) else none
    getCDependencies popen (fun n : Fin 10 => ascii (toString n)) (ascii "gcc") (ascii "main.c") .nil
        = [ascii "main.c", ascii "a.h"] ↔
      ReadableRule (ascii "main.o") [ascii "main.c", ascii "a.h"] := by
  intro deps popen
  exact getCDependencies_iff popen _ (ascii "gcc") (ascii "main.c") .nil (ascii "main.o") deps
    (by decide)

/-- The file `my file.h` comes back as `my\` and `file.h`. -/
theorem getCDependencies_blank :
    let deps : List Dependency :=
      [⟨[.blank], by decide, ascii "main.c"⟩, ⟨[.blank], by decide, ascii "my file.h"⟩]
    let popen : Bytes → Option Bytes := fun command =>
      if command = ascii "gcc -M main.c" then some (makeRule (ascii "main.o") deps) else none
    let found := getCDependencies popen (fun n : Fin 10 => ascii (toString n)) (ascii "gcc")
      (ascii "main.c") .nil
    makeRule (ascii "main.o") deps = ascii "main.o: main.c my\\ file.h\n" ∧
      found = [ascii "main.c", ascii "my\\", ascii "file.h"] ∧ found ≠ deps.map Dependency.name := by
  decide

end Tmg.Nob
