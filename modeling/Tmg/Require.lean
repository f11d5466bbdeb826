/-
# `Tmg.Require` — what `require` finds

`require(name)` asks four loaders in turn, and what they have to say where they find nothing
is the end of its error message:

| | looks at |
| :-- | :-- |
| `loaderPreload` | `package.preload[name]` |
| `loaderLua` | the templates of `package.path`, for a Lua file |
| `loaderC` | the templates of `package.cpath`, for a C library |
| `loaderCroot` | the same for what stands before the first dot of the name |

A template is what stands between two semicolons of a path; every question mark in it becomes
the name, and every dot of the name a slash.  `searchpath` takes a path apart with a
pointer, one template at a time.

The templates that `setup_lib_path` puts in front of the two paths make the directories of
`TMG_LIB_PATH` the first ones that are looked at, in their order (`findModule_libPath`).
-/
import Tmg.FindLib
import Tmg.Report
import Tmg.Lib.Words

namespace Tmg.Require

open Lib

/-! ## The functions -/

theorem strstr_bound {s p : Bytes} {i : Nat} (h : strstr s p = some i) : i + p.length ≤ s.length := by
  have hfirst := strstr_eq_some_iff.mp h
  have hlen := hfirst.1.length_le
  have hle := hfirst.le_length
  rw [List.length_drop] at hlen
  omega

/-- `luaL_gsub(L, s, p, r)`.  For an empty `p` the loop does not end. -/
def luaLGsub {p : Bytes} (hp : p ≠ []) (r s : Bytes) : Bytes :=
  match _h : strstr s p with
  | none => s
  | some wild => s.take wild ++ r ++ luaLGsub hp r (s.drop (wild + p.length))
termination_by s.length
decreasing_by
  have hle := strstr_bound _h
  have hpos := List.length_pos_iff.mpr hp
  rw [List.length_drop]
  omega

/-- `pushnexttemplate`: the template, and the path behind it. -/
def pushNextTemplate (path : Bytes) : Option (Bytes × Bytes) :=
  match path.dropWhile (· = 59) with
  | [] => none
  | c :: path => some ((c :: path).takeWhile (· ≠ 59), (c :: path).dropWhile (· ≠ 59))

theorem pushNextTemplate_lt {path template rest : Bytes}
    (h : pushNextTemplate path = some (template, rest)) : rest.length < path.length := by
  have hle := (List.dropWhile_suffix (· = (59 : Byte)) (l := path)).length_le
  unfold pushNextTemplate at h
  split at h
  · exact absurd h (by simp)
  · next c rest' hpath =>
      have hc : c ≠ 59 := by
        have hhead := List.head?_dropWhile_not (· = (59 : Byte)) path
        rw [hpath] at hhead
        simpa using hhead
      obtain ⟨-, rfl⟩ := Prod.mk.inj (Option.some.inj h)
      rw [hpath, List.length_cons] at hle
      rw [List.dropWhile_cons_of_pos (by simpa using hc)]
      exact ((List.dropWhile_suffix _).length_le.trans_lt (Nat.lt_succ_self _)).trans_le hle

/-- The loop of `searchpath`: the file, or the message. -/
def searchTemplates (readable : Bytes → Bool) (name : Bytes) (path msg : Bytes) : Bytes ⊕ Bytes :=
  match _h : pushNextTemplate path with
  | none => .inr msg
  | some (template, path) =>
      let filename := luaLGsub (p := [63]) (by simp) name template
      if readable filename then .inl filename
      else searchTemplates readable name path (msg ++ ascii "\n\tno file '" ++ filename ++ ascii "'")
termination_by path.length
decreasing_by exact pushNextTemplate_lt _h

/-- `searchpath` -/
def searchpath (readable : Bytes → Bool) (name path sep dirsep : Bytes) : Bytes ⊕ Bytes :=
  let name := if h : sep ≠ [] then luaLGsub h dirsep name else name
  searchTemplates readable name path []

/-- `findfile` -/
def findfile (readable : Bytes → Bool) (name path : Bytes) : Bytes ⊕ Bytes :=
  searchpath readable name path (ascii ".") (ascii "/")

/-! ## Templates -/

/-- The templates of a path. -/
def templates (path : Bytes) : List Bytes := words (· = 59) path

/-- A template with the name put in. -/
def fill (name template : Bytes) : Bytes := template.flatMap fun c => if c = 63 then name else [c]

/-- The name as a part of a path. -/
def dotted (name : Bytes) : Bytes := name.flatMap fun c => if c = 46 then ascii "/" else [c]

/-- The files that a path stands for, in the order in which they are looked at. -/
def filesOf (name path : Bytes) : List Bytes := (templates path).map (fill name)

theorem luaLGsub_none {p : Bytes} (hp : p ≠ []) {r s : Bytes} (h : strstr s p = none) :
    luaLGsub hp r s = s := by
  unfold luaLGsub
  split
  · rfl
  · next wild hwild => exact absurd (h.symm.trans hwild) (by simp)

theorem luaLGsub_some {p : Bytes} (hp : p ≠ []) {r s : Bytes} {i : Nat} (h : strstr s p = some i) :
    luaLGsub hp r s = s.take i ++ r ++ luaLGsub hp r (s.drop (i + p.length)) := by
  rw [luaLGsub.eq_def]
  split
  · next hnone => exact absurd (h.symm.trans hnone) (by simp)
  · next wild hwild =>
      obtain rfl := Option.some.inj (h.symm.trans hwild)
      rfl

theorem strstr_byte_none {c : Byte} {s : Bytes} (h : c ∉ s) : strstr s [c] = none := by
  rw [Option.eq_none_iff_forall_ne_some]
  intro i hi
  have hpre := (strstr_eq_some_iff.mp hi).1
  exact h ((List.drop_subset i s) (hpre.subset (List.mem_singleton_self c)))

theorem strstr_byte_some {c : Byte} {a b : Bytes} (h : c ∉ a) :
    strstr (a ++ c :: b) [c] = some a.length := by
  refine strstr_eq_some_iff.mpr ⟨by simp, fun j hj hpre => h ?_⟩
  rw [List.drop_append_of_le_length hj.le, List.drop_eq_getElem_cons hj, List.cons_append,
    List.cons_prefix_cons] at hpre
  exact hpre.1 ▸ List.getElem_mem hj

theorem flatMap_byte_of_not_mem {c : Byte} {r a : Bytes} (h : c ∉ a) :
    (a.flatMap fun d => if d = c then r else [d]) = a := by
  induction a with
  | nil => rfl
  | cons d a ih =>
      rw [List.mem_cons, not_or] at h
      rw [List.flatMap_cons, ih h.2, if_neg (Ne.symm h.1)]
      rfl

/-- Of one byte, every occurrence is replaced. -/
theorem luaLGsub_byte (c : Byte) (hc : [c] ≠ []) (r s : Bytes) :
    luaLGsub hc r s = s.flatMap fun d => if d = c then r else [d] := by
  induction hn : s.length using Nat.strong_induction_on generalizing s with
  | h n ih =>
      by_cases hmem : c ∈ s
      · obtain ⟨a, b, rfl, ha⟩ := List.eq_append_cons_of_mem hmem
        have hrest : (a ++ c :: b).drop (a.length + [c].length) = b := by
          rw [List.length_singleton, ← List.drop_drop, List.drop_left, List.drop_one, List.tail_cons]
        have hlt : b.length < n := by
          rw [← hn, List.length_append, List.length_cons]
          omega
        rw [luaLGsub_some hc (strstr_byte_some ha), hrest, ih _ hlt _ rfl, List.take_left,
          List.flatMap_append, List.flatMap_cons, if_pos rfl, flatMap_byte_of_not_mem ha,
          List.append_assoc]
      · rw [luaLGsub_none hc (strstr_byte_none hmem), flatMap_byte_of_not_mem hmem]

/-! ## The search -/

/-- The templates of a path are taken off one by one. -/
theorem templates_pushNext {path template rest : Bytes}
    (h : pushNextTemplate path = some (template, rest)) :
    templates path = template :: templates rest := by
  unfold pushNextTemplate at h
  split at h
  · exact absurd h (by simp)
  · next c path' hpath =>
      obtain ⟨rfl, rfl⟩ := Prod.mk.inj (Option.some.inj h)
      have hc : c ≠ 59 := by
        have hhead := List.head?_dropWhile_not (· = (59 : Byte)) path
        rw [hpath] at hhead
        simpa using hhead
      have hsplit := List.takeWhile_append_dropWhile (p := (· ≠ (59 : Byte))) (l := c :: path')
      rw [templates, ← words_dropWhile, hpath, ← hsplit, words_append, hsplit]
      · rfl
      · rw [List.takeWhile_cons_of_pos (by simpa using hc)]
        exact List.cons_ne_nil _ _
      · intro d hd
        simpa using List.mem_takeWhile_imp hd
      · intro d hd
        have hhead := List.head?_dropWhile_not (· ≠ (59 : Byte)) (c :: path')
        rw [Option.mem_def.mp hd] at hhead
        simpa using hhead

theorem templates_of_none {path : Bytes} (h : pushNextTemplate path = none) : templates path = [] := by
  unfold pushNextTemplate at h
  split at h
  · next hpath => rw [templates, ← words_dropWhile, hpath, words_nil]
  · exact absurd h (by simp)

theorem searchTemplates_eq (readable : Bytes → Bool) (name path msg : Bytes) :
    searchTemplates readable name path msg = searchNoting readable noFile (filesOf name path) msg := by
  induction hn : path.length using Nat.strong_induction_on generalizing path msg with
  | h n ih =>
      rw [searchTemplates.eq_def, filesOf]
      split
      · next hnone => rw [templates_of_none hnone, List.map_nil, searchNoting_nil]
      · next template rest hnext =>
          have hfile : luaLGsub (p := [63]) (by simp) name template = fill name template :=
            luaLGsub_byte 63 (by simp) name template
          rw [templates_pushNext hnext, List.map_cons]
          dsimp only
          rw [hfile]
          by_cases hread : readable (fill name template) = true
          · rw [if_pos hread, searchNoting_cons_of_pos hread]
          · rw [if_neg hread, searchNoting_cons_of_neg hread,
              ih _ (hn ▸ pushNextTemplate_lt hnext) _ _ rfl, filesOf, noFile]
            simp only [List.append_assoc]

/-- `findfile` looks at the files of the path in their order. -/
theorem findfile_eq (readable : Bytes → Bool) (name path : Bytes) :
    findfile readable name path = searchNoting readable noFile (filesOf (dotted name) path) [] := by
  have hsep : ascii "." ≠ [] := by decide
  have hname : luaLGsub hsep (ascii "/") name = dotted name := luaLGsub_byte 46 hsep (ascii "/") name
  rw [findfile, searchpath, dif_pos hsep, hname, searchTemplates_eq]

/-! ## The loaders -/

/-- What `ll_loadfunc` comes to. -/
inductive LoadFunc where
  | loaded
  | errLib (msg : Bytes)
  | errFunc (msg : Bytes)
deriving DecidableEq, Repr

/-- What a loader returns, if it raises no error: a function, and where it is from, or a
message, or nothing. -/
inductive Loader where
  | preload
  | lua (file : Bytes)
  | c (file sym : Bytes)
  | message (msg : Bytes)
  | nothing
deriving DecidableEq, Repr

/-- The tables and files that the loaders see. -/
structure World where
  readable : Bytes → Bool
  /-- `package.preload[name]` is set, or the program has bytecode of that name -/
  preload : Bytes → Bool
  path : Bytes
  cpath : Bytes
  /-- the error of `luaL_loadfile`, if there is one -/
  loadfile : Bytes → Option Bytes
  loadfunc : Bytes → Bytes → LoadFunc

/-- The text of `loaderror`, without the position. -/
def loaderror (name filename msg : Bytes) : Bytes :=
  ascii "error loading module '" ++ name ++ ascii "' from file '" ++ filename ++ ascii "':\n\t" ++ msg

section

variable (w : World)

/-- `lj_cf_package_loader_preload` -/
def loaderPreload (name : Bytes) : Except Bytes Loader :=
  if w.preload name then .ok .preload
  else .ok (.message (ascii "\n\tno field package.preload['" ++ name ++ ascii "']"))

/-- `lj_cf_package_loader_lua` -/
def loaderLua (name : Bytes) : Except Bytes Loader :=
  match findfile w.readable name w.path with
  | .inr msg => .ok (.message msg)
  | .inl filename =>
      match w.loadfile filename with
      | some msg => .error (loaderror name filename msg)
      | none => .ok (.lua filename)

/-- `lj_cf_package_loader_c` -/
def loaderC (name : Bytes) : Except Bytes Loader :=
  match findfile w.readable name w.cpath with
  | .inr msg => .ok (.message msg)
  | .inl filename =>
      match w.loadfunc filename name with
      | .loaded => .ok (.c filename name)
      | .errLib msg => .error (loaderror name filename msg)
      | .errFunc msg => .error (loaderror name filename msg)

/-- `lj_cf_package_loader_croot` -/
def loaderCroot (name : Bytes) : Except Bytes Loader :=
  if 46 ∈ name then
    match findfile w.readable (name.takeWhile (· ≠ 46)) w.cpath with
    | .inr msg => .ok (.message msg)
    | .inl filename =>
        match w.loadfunc filename name with
        | .loaded => .ok (.c filename name)
        | .errLib msg => .error (loaderror name filename msg)
        | .errFunc _ =>
            .ok (.message (ascii "\n\tno module '" ++ name ++ ascii "' in file '" ++ filename ++ ascii "'"))
  else .ok .nothing

/-- The loop of `lj_cf_package_require` over the loaders: the first function. -/
def askLoaders (name : Bytes) : List (Bytes → Except Bytes Loader) → Bytes → Except Bytes Loader
  | [], msg => .error (ascii "module '" ++ name ++ ascii "' not found:" ++ msg)
  | loader :: loaders, msg =>
      match loader name with
      | .error e => .error e
      | .ok (.message more) => askLoaders name loaders (msg ++ more)
      | .ok .nothing => askLoaders name loaders msg
      | .ok found => .ok found

/-- What `require` loads, for a module that is not loaded. -/
def findModule (name : Bytes) : Except Bytes Loader :=
  askLoaders name [loaderPreload w, loaderLua w, loaderC w, loaderCroot w] []

end

/-! ## Under `TMG_LIB_PATH` -/

/-- The Lua files of a directory that are looked at. -/
def luaFiles (name dir : Bytes) : List Bytes :=
  [dir ++ ascii "/" ++ name ++ ascii ".lua", dir ++ ascii "/" ++ name ++ ascii "/init.lua"]

/-- The C library of a directory that is looked at. -/
def soFile (name dir : Bytes) : Bytes := dir ++ ascii "/" ++ name ++ ascii ".so"

/-- A directory that a template can hold: without a semicolon and a question mark. -/
def Plain (dir : Bytes) : Prop := 59 ∉ dir ∧ 63 ∉ dir

instance (dir : Bytes) : Decidable (Plain dir) := inferInstanceAs (Decidable (_ ∧ _))

theorem filesOf_append {name template path : Bytes} (hne : template ≠ []) (hsep : 59 ∉ template) :
    filesOf name (template ++ ascii ";" ++ path) = fill name template :: filesOf name path := by
  have hword : ∀ c ∈ template, decide (c = 59) = false :=
    fun c hc => decide_eq_false fun h => hsep (h ▸ hc)
  have hsplit : template ++ ascii ";" ++ path = template ++ 59 :: path := by
    rw [List.append_assoc]
    rfl
  rw [hsplit, filesOf, templates, words_append hne hword (by simp), words_cons (by simp)]
  rfl

/-- A directory puts the name in for the mark, and nothing else. -/
theorem fill_dir {name dir : Bytes} (hdir : 63 ∉ dir) (file : Bytes) :
    fill name (dir ++ ascii "/?" ++ file) = dir ++ ascii "/" ++ name ++ fill name file := by
  have hmark : fill name (ascii "/?") = ascii "/" ++ name := by
    show [47] ++ (name ++ []) = [47] ++ name
    rw [List.append_nil]
  have happend : ∀ s t, fill name (s ++ t) = fill name s ++ fill name t :=
    fun s t => List.flatMap_append
  have hself : fill name dir = dir := flatMap_byte_of_not_mem hdir
  rw [happend, happend, hself, hmark]
  simp only [List.append_assoc]

theorem filesOf_luaPatterns {name dir : Bytes} (hdir : Plain dir) (path : Bytes) :
    filesOf name (luaPatterns dir ++ path) = luaFiles name dir ++ filesOf name path := by
  have hpatterns : luaPatterns dir ++ path = (dir ++ ascii "/?" ++ ascii ".lua") ++ ascii ";" ++
      ((dir ++ ascii "/?" ++ ascii "/init.lua") ++ ascii ";" ++ path) := by
    have hlua : ascii "/?.lua;" = ascii "/?" ++ ascii ".lua" ++ ascii ";" := by decide
    have hinit : ascii "/?/init.lua;" = ascii "/?" ++ ascii "/init.lua" ++ ascii ";" := by decide
    rw [luaPatterns, hlua, hinit]
    simp only [List.append_assoc]
  have hlua : 59 ∉ dir ++ ascii "/?" ++ ascii ".lua" := by
    simp only [List.mem_append, not_or]
    exact ⟨⟨hdir.1, by decide⟩, by decide⟩
  have hinit : 59 ∉ dir ++ ascii "/?" ++ ascii "/init.lua" := by
    simp only [List.mem_append, not_or]
    exact ⟨⟨hdir.1, by decide⟩, by decide⟩
  rw [hpatterns, filesOf_append (List.append_ne_nil_of_right_ne_nil _ (by decide)) hlua,
    filesOf_append (List.append_ne_nil_of_right_ne_nil _ (by decide)) hinit, fill_dir hdir.2,
    fill_dir hdir.2]
  rfl

theorem filesOf_soPattern {name dir : Bytes} (hdir : Plain dir) (path : Bytes) :
    filesOf name (soPattern dir ++ path) = soFile name dir :: filesOf name path := by
  have hpattern : soPattern dir ++ path = (dir ++ ascii "/?" ++ ascii ".so") ++ ascii ";" ++ path := by
    have hso : ascii "/?.so;" = ascii "/?" ++ ascii ".so" ++ ascii ";" := by decide
    rw [soPattern, hso]
    simp only [List.append_assoc]
  have hso : 59 ∉ dir ++ ascii "/?" ++ ascii ".so" := by
    simp only [List.mem_append, not_or]
    exact ⟨⟨hdir.1, by decide⟩, by decide⟩
  rw [hpattern, filesOf_append (List.append_ne_nil_of_right_ne_nil _ (by decide)) hso,
    fill_dir hdir.2]
  rfl

/-- What the directories add to a path comes first. -/
theorem filesOf_flatMap {name path : Bytes} {pattern : Bytes → Bytes} {files : Bytes → List Bytes}
    {dirs : List Bytes}
    (h : ∀ dir ∈ dirs, ∀ path, filesOf name (pattern dir ++ path) = files dir ++ filesOf name path) :
    filesOf name (dirs.flatMap pattern ++ path) = dirs.flatMap files ++ filesOf name path := by
  induction dirs with
  | nil => rfl
  | cons dir dirs ih =>
      obtain ⟨hdir, hdirs⟩ := List.forall_mem_cons.mp h
      rw [List.flatMap_cons, List.append_assoc, hdir, ih hdirs, List.flatMap_cons, List.append_assoc]

/-- The Lua files for a module, those of the directories first. -/
def luaCandidates (env : Option CString) (old : Package) (name : Bytes) : List Bytes :=
  (libDirs env).flatMap (luaFiles (dotted name)) ++ filesOf (dotted name) old.path

/-- The C libraries for a module, those of the directories first. -/
def soCandidates (env : Option CString) (old : Package) (name : Bytes) : List Bytes :=
  (libDirs env).map (soFile (dotted name)) ++ filesOf (dotted name) old.cpath

theorem setupLibPath_package (env : Option CString) (old : Package) :
    (setupLibPath env (some old)).2 = some
      { path := (libDirs env).flatMap luaPatterns ++ old.path
        cpath := (libDirs env).flatMap soPattern ++ old.cpath } := by
  cases env with
  | none => simp [setupLibPath, libDirs]
  | some env =>
      rw [setupLibPath, scanEnv_eq { dirs := [], lpath := [], cpath := [] } env.noNul]
      by_cases hdirs : dirsOf (env.bytes.splitOn 58) = []
      · simp [LibPath.add, libDirs, hdirs]
      · simp [LibPath.add, libDirs, hdirs, List.length_pos_iff]

/-- The files of the two paths, as they are when `setup_lib_path` has run. -/
theorem filesOf_setup {env : Option CString} {old new : Package}
    (hsetup : (setupLibPath env (some old)).2 = some new) (hdirs : ∀ dir ∈ libDirs env, Plain dir)
    (name : Bytes) :
    filesOf (dotted name) new.path = luaCandidates env old name ∧
      filesOf (dotted name) new.cpath = soCandidates env old name := by
  rw [setupLibPath_package] at hsetup
  obtain rfl := Option.some.inj hsetup
  constructor
  · exact filesOf_flatMap fun dir hdir => filesOf_luaPatterns (hdirs dir hdir)
  · rw [soCandidates, List.map_eq_flatMap]
    exact filesOf_flatMap fun dir hdir => filesOf_soPattern (hdirs dir hdir)

theorem findfile_of_find {readable : Bytes → Bool} {name path file : Bytes}
    (h : (filesOf (dotted name) path).find? readable = some file) :
    findfile readable name path = .inl file := by
  rw [findfile_eq, searchNoting, h]

theorem findfile_of_none {readable : Bytes → Bool} {name path : Bytes}
    (h : (filesOf (dotted name) path).find? readable = none) :
    findfile readable name path = .inr ((filesOf (dotted name) path).flatMap noFile) := by
  rw [findfile_eq, searchNoting, h, List.nil_append]

/-- What is left to say where nothing is found: every file that was looked at. -/
def notFoundIn (name : Bytes) (files : List Bytes) (more : Bytes) : Bytes :=
  ascii "module '" ++ name ++ ascii "' not found:" ++
    (ascii "\n\tno field package.preload['" ++ name ++ ascii "']" ++ files.flatMap noFile ++ more)

/-- The module, by the files: the first Lua file, else the first C library, else the first C
library of the root of the name. -/
def resolve (w : World) (env : Option CString) (old : Package) (name : Bytes) : Except Bytes Loader :=
  let lua := luaCandidates env old name
  let so := soCandidates env old name
  let root := soCandidates env old (name.takeWhile (· ≠ 46))
  match lua.find? w.readable with
  | some file => (w.loadfile file).elim (.ok (.lua file)) fun msg => .error (loaderror name file msg)
  | none =>
      match so.find? w.readable with
      | some file =>
          match w.loadfunc file name with
          | .loaded => .ok (.c file name)
          | .errLib msg => .error (loaderror name file msg)
          | .errFunc msg => .error (loaderror name file msg)
      | none =>
          if 46 ∈ name then
            match root.find? w.readable with
            | some file =>
                match w.loadfunc file name with
                | .loaded => .ok (.c file name)
                | .errLib msg => .error (loaderror name file msg)
                | .errFunc _ =>
                    .error (notFoundIn name (lua ++ so)
                      (ascii "\n\tno module '" ++ name ++ ascii "' in file '" ++ file ++ ascii "'"))
            | none => .error (notFoundIn name (lua ++ so ++ root) [])
          else .error (notFoundIn name (lua ++ so) [])

/-- **What `require` loads.**  The directories of `TMG_LIB_PATH` are looked at before the paths
that were there, in their order; the Lua files come before the C libraries; and where nothing is
found the error names every file that was looked at. -/
theorem findModule_libPath {env : Option CString} {old : Package} {w : World} {name : Bytes}
    (hsetup : (setupLibPath env (some old)).2 = some ⟨w.path, w.cpath⟩)
    (hdirs : ∀ dir ∈ libDirs env, Plain dir) (hpreload : w.preload name = false) :
    findModule w name = resolve w env old name := by
  obtain ⟨hlua, hso⟩ := filesOf_setup hsetup hdirs name
  obtain ⟨-, hroot⟩ := filesOf_setup hsetup hdirs (name.takeWhile (· ≠ 46))
  dsimp only at hlua hso hroot
  simp only [findModule, askLoaders, loaderPreload, hpreload, Bool.false_eq_true, if_false,
    List.nil_append, resolve]
  -- the Lua files
  cases hl : (luaCandidates env old name).find? w.readable with
  | some file =>
      have hfound : findfile w.readable name w.path = .inl file := findfile_of_find (by rw [hlua, hl])
      rw [loaderLua, hfound]
      cases hload : w.loadfile file <;> simp [hload]
  | none =>
      have hnone : findfile w.readable name w.path =
          .inr ((filesOf (dotted name) w.path).flatMap noFile) := findfile_of_none (by rw [hlua, hl])
      rw [loaderLua, hnone, hlua]
      dsimp only
      -- the C libraries
      cases hs : (soCandidates env old name).find? w.readable with
      | some file =>
          have hfound : findfile w.readable name w.cpath = .inl file := findfile_of_find (by rw [hso, hs])
          rw [loaderC, hfound]
          cases hload : w.loadfunc file name <;> simp [hload]
      | none =>
          have hnone : findfile w.readable name w.cpath =
              .inr ((filesOf (dotted name) w.cpath).flatMap noFile) :=
            findfile_of_none (by rw [hso, hs])
          rw [loaderC, hnone, hso, loaderCroot]
          dsimp only
          by_cases hdot : 46 ∈ name
          · rw [if_pos hdot, if_pos hdot]
            -- the root of the name
            cases hr : (soCandidates env old (name.takeWhile (· ≠ 46))).find? w.readable with
            | some file =>
                have hfound : findfile w.readable (name.takeWhile (· ≠ 46)) w.cpath = .inl file :=
                  findfile_of_find (by rw [hroot, hr])
                rw [hfound]
                cases hload : w.loadfunc file name <;>
                  simp [hload, notFoundIn, List.flatMap_append, List.append_assoc]
            | none =>
                have hnone : findfile w.readable (name.takeWhile (· ≠ 46)) w.cpath =
                    .inr ((filesOf (dotted (name.takeWhile (· ≠ 46))) w.cpath).flatMap noFile) :=
                  findfile_of_none (by rw [hroot, hr])
                rw [hnone, hroot]
                simp only [notFoundIn, List.flatMap_append, List.append_assoc, List.append_nil]
          · rw [if_neg hdot, if_neg hdot]
            simp only [notFoundIn, List.flatMap_append, List.append_assoc, List.append_nil]

/-- The second directory holds the module. -/
theorem findModule_libPath_nob :
    findModule
        { readable := fun file => file = ascii "b/nob.lua", preload := fun _ => false,
          path := ascii "a/?.lua;a/?/init.lua;b/?.lua;b/?/init.lua;./?.lua",
          cpath := ascii "a/?.so;b/?.so;./?.so", loadfile := fun _ => none,
          loadfunc := fun _ _ => .loaded } (ascii "nob") = .ok (.lua (ascii "b/nob.lua")) :=
  have hsetup : (setupLibPath (some ⟨ascii "a:b/", by decide⟩)
      (some ⟨ascii "./?.lua", ascii "./?.so"⟩)).2 = some ⟨_, _⟩ := setupLibPath_package _ _
  (findModule_libPath hsetup (by decide) rfl).trans (by decide)

end Tmg.Require
