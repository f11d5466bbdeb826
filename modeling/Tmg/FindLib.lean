/-
# `Tmg.FindLib` — `tmg.find_lib`

A library is looked for in the directories of `TMG_LIB_PATH`, in each under one name or two:

    name              in the directory `dir`
    raylib            dir/libraylib.so          dir/raylib.so
    native/raylib     dir/native/libraylib.so   dir/native/raylib.so
    libfoo.so.2       dir/libfoo.so.2

`candidates` is the list of these paths, directory by directory, without those that do not
fit into the buffer; `findLib_eq` says that the call returns the first of them that can be
read, and `nil` with a message that names all of them where none can.

The Lua stack is modelled by its values, the top first.  The list of the directories stays
on it while the loop runs, and `lua_rawgeti` finds it there only if every round leaves the
stack as it was.
-/
import Tmg.LibPath
import Tmg.Lib.FirstHit

namespace Tmg

open Lib

/-! ## The stack -/

/-- The Lua values that the function handles; its tables are lists of C strings. -/
inductive StackValue where
  | nil
  | string (s : Bytes)
  | table (entries : List CString)
deriving DecidableEq

/-- The Lua stack, the top first. -/
abbrev LuaStack := List StackValue

/-- `lua_rawgeti(L, -1, i)`: defined where a table is on the top. -/
def rawgeti (st : LuaStack) (i : Nat) : Option LuaStack :=
  match st with
  | .table entries :: _ => some ((entries[i - 1]?.elim .nil fun s => .string s.bytes) :: st)
  | _ => none

/-- `lua_tostring(L, -1)` -/
def tostring : LuaStack → Option Bytes
  | .string s :: _ => some s
  | _ => none

/-- How a call ends: it returns values, or it raises an error. -/
inductive Outcome where
  | returned (values : List StackValue)
  | raised (message : Bytes)
deriving DecidableEq

/-- `return k`: the `k` values on the top, in the order they were pushed. -/
def returnTop (k : Nat) (st : LuaStack) : Outcome := .returned (st.take k).reverse

/-! ## The function -/

/-- `strrchr(name, '/')`: the name up to and with its last slash. -/
def subOf (name : Bytes) : Bytes := name.rdropWhile (· ≠ 47)

/-- The name after its last slash. -/
def baseOf (name : Bytes) : Bytes := name.rtakeWhile (· ≠ 47)

/-- `strstr(base, ".so") != NULL` -/
def literal (base : Bytes) : Bool := ascii ".so" <:+: base

/-- The entries of `fmts` before `NULL`, as what `snprintf` writes for `dir`, `sub`, `base`. -/
def fmts (literal : Bool) : List (Bytes → Bytes → Bytes → Bytes) :=
  if literal then
    [fun dir sub base => cstr dir ++ ascii "/" ++ cstr sub ++ cstr base]
  else
    [fun dir sub base => cstr dir ++ ascii "/" ++ cstr sub ++ ascii "lib" ++ cstr base ++ ascii ".so",
     fun dir sub base => cstr dir ++ ascii "/" ++ cstr sub ++ cstr base ++ ascii ".so"]

/-- `sizeof(cand)` -/
def candSize : Nat := 4096

/-- `sizeof(sub)` -/
def subSize : Nat := 1024

/-- `for (int f = 0; f < 2 && fmts[f]; f++)`: it leaves with `cand`, or with `tried`. -/
def tryFmts (readable : Bytes → Bool) (dir sub base : Bytes) :
    List (Bytes → Bytes → Bytes → Bytes) → Bytes → Bytes ⊕ Bytes
  | [], tried => .inr tried
  | fmt :: fmts, tried =>
      let cand := fmt dir sub base
      if candSize ≤ cand.length then tryFmts readable dir sub base fmts tried
      else if readable cand then .inl cand
      else
        let tried := strPush (strPush tried (ascii "\n\tno file '")) cand
        tryFmts readable dir sub base fmts (strPushChr tried 39)

/-- `for (int i = 1; i <= n; i++)`, for the values of `i` that are listed. -/
def tryDirs (readable : Bytes → Bool) (sub base : Bytes) :
    List Nat → LuaStack → Bytes → Option (LuaStack × (Bytes ⊕ Bytes))
  | [], st, tried => some (st, .inr tried)
  | i :: is, st, tried => do
      let st ← rawgeti st i
      let dir ← tostring st
      match tryFmts readable dir sub base (fmts (literal base)) tried with
      | .inl cand => some (st, .inl cand)
      | .inr tried => tryDirs readable sub base is (st.drop 1) tried

/-- `l_tmg_find_lib`, `dirs` being the list that the registry holds. -/
def findLib (readable : Bytes → Bool) (dirs : List CString) (name : CString) : Option Outcome :=
  let st : LuaStack := [.string name.bytes]
  let sub := subOf name.bytes
  let base := baseOf name.bytes
  if subSize ≤ sub.length then some (.raised (ascii "find_lib: name too long"))
  else if name.bytes.head? = some 47 then
    if readable name.bytes then some (returnTop 1 (.string name.bytes :: st))
    else
      let message := ascii "library '" ++ name.bytes ++ ascii "' not found"
      some (returnTop 2 (.string message :: .nil :: st))
  else if base = [] then some (.raised (ascii "find_lib: empty library name"))
  else do
    let st : LuaStack := .table dirs :: st
    let n := dirs.length
    let (st, result) ← tryDirs readable sub base (List.range' 1 n) st []
    match result with
    | .inl cand => some (returnTop 1 (.string cand :: st))
    | .inr tried =>
        let message :=
          if n = 0 then
            ascii "library '" ++ name.bytes ++ ascii "' not found (TMG_LIB_PATH is empty)"
          else
            ascii "library '" ++ name.bytes ++ ascii "' not found in TMG_LIB_PATH:" ++ cstr tried
        some (returnTop 2 (.string message :: .nil :: st))

/-! ## The candidates -/

/-- The names of the file in its directory. -/
def fileNames (base : Bytes) : List Bytes :=
  if ascii ".so" <:+: base then [base]
  else [ascii "lib" ++ base ++ ascii ".so", base ++ ascii ".so"]

/-- The paths in one directory that are looked at. -/
def candidatesIn (sub base dir : Bytes) : List Bytes :=
  ((fileNames base).map fun file => dir ++ ascii "/" ++ sub ++ file).filter (·.length < 4096)

/-- The paths that are looked at. -/
def candidates (dirs : List CString) (sub base : Bytes) : List Bytes :=
  dirs.flatMap fun dir => candidatesIn sub base dir.bytes

/-- The line of the message about one of them. -/
def noFile (cand : Bytes) : Bytes := ascii "\n\tno file '" ++ cand ++ ascii "'"

/-- The message. -/
def notFound (dirs : List CString) (name : CString) (tried : List Bytes) : Bytes :=
  ascii "library '" ++ name.bytes ++
    if dirs = [] then ascii "' not found (TMG_LIB_PATH is empty)"
    else ascii "' not found in TMG_LIB_PATH:" ++ tried.flatMap noFile

/-! ## One directory -/

theorem subOf_subset (name : Bytes) : subOf name ⊆ name := (List.rdropWhile_prefix _ _).subset

theorem baseOf_subset (name : Bytes) : baseOf name ⊆ name := (List.rtakeWhile_suffix _ _).subset

/-- The formats, applied, are the paths of the files. -/
theorem map_fmts {dir sub base : Bytes} (hdir : 0 ∉ dir) (hsub : 0 ∉ sub) (hbase : 0 ∉ base) :
    (fmts (literal base)).map (fun fmt => fmt dir sub base) =
      (fileNames base).map fun file => dir ++ ascii "/" ++ sub ++ file := by
  by_cases hso : ascii ".so" <:+: base
  · simp [fmts, literal, fileNames, hso, cstr_eq_self_iff.mpr hdir, cstr_eq_self_iff.mpr hsub,
      cstr_eq_self_iff.mpr hbase]
  · simp [fmts, literal, fileNames, hso, cstr_eq_self_iff.mpr hdir, cstr_eq_self_iff.mpr hsub,
      cstr_eq_self_iff.mpr hbase]

theorem not_mem_path {dir sub base file : Bytes} (hdir : 0 ∉ dir) (hsub : 0 ∉ sub)
    (hbase : 0 ∉ base) (hfile : file ∈ fileNames base) :
    0 ∉ dir ++ ascii "/" ++ sub ++ file := by
  have hslash : 0 ∉ ascii "/" := by decide
  have hlib : 0 ∉ ascii "lib" := by decide
  have hso : 0 ∉ ascii ".so" := by decide
  have hname : 0 ∉ file := by
    rw [fileNames] at hfile
    split at hfile
    · rw [List.mem_singleton.mp hfile]
      exact hbase
    · rcases List.mem_pair.mp hfile with rfl | rfl
      · simp [hlib, hbase, hso]
      · simp [hbase, hso]
  simp [hdir, hslash, hsub, hname]

/-- The loop over the formats is a search that notes what it passes over. -/
theorem tryFmts_eq (readable : Bytes → Bool) (dir sub base : Bytes) :
    ∀ (fs : List (Bytes → Bytes → Bytes → Bytes)) (tried : Bytes),
      (∀ cand ∈ fs.map (fun fmt => fmt dir sub base), 0 ∉ cand) →
      tryFmts readable dir sub base fs tried =
        searchNoting readable noFile
          ((fs.map fun fmt => fmt dir sub base).filter (·.length < 4096)) tried
  | [], tried, _ => by simp [tryFmts]
  | fmt :: fs, tried, h0 => by
      rw [List.map_cons, List.forall_mem_cons] at h0
      rw [tryFmts, List.map_cons, candSize]
      by_cases hlen : (fmt dir sub base).length < 4096
      · rw [if_neg (by omega), List.filter_cons_of_pos (by simpa using hlen)]
        by_cases hread : readable (fmt dir sub base) = true
        · rw [if_pos hread, searchNoting_cons_of_pos hread]
        · have hnote : strPushChr (strPush (strPush tried (ascii "\n\tno file '"))
              (fmt dir sub base)) 39 = tried ++ noFile (fmt dir sub base) := by
            have hno : cstr (ascii "\n\tno file '") = ascii "\n\tno file '" := by decide
            have hquote : ascii "'" = [39] := by decide
            simp [strPushChr, strPush, noFile, hno, hquote, cstr_eq_self_iff.mpr h0.1]
          rw [if_neg hread, searchNoting_cons_of_neg hread, ← tryFmts_eq _ _ _ _ fs _ h0.2,
            ← hnote]
      · rw [if_pos (by omega), List.filter_cons_of_neg (by simpa using hlen)]
        exact tryFmts_eq readable dir sub base fs tried h0.2

theorem tryFmts_fmts (readable : Bytes → Bool) {dir sub base : Bytes} (hdir : 0 ∉ dir)
    (hsub : 0 ∉ sub) (hbase : 0 ∉ base) (tried : Bytes) :
    tryFmts readable dir sub base (fmts (literal base)) tried =
      searchNoting readable noFile (candidatesIn sub base dir) tried := by
  have h0 : ∀ cand ∈ (fmts (literal base)).map (fun fmt => fmt dir sub base), 0 ∉ cand := by
    rw [map_fmts hdir hsub hbase]
    intro cand hcand
    obtain ⟨file, hfile, rfl⟩ := List.mem_map.mp hcand
    exact not_mem_path hdir hsub hbase hfile
  rw [tryFmts_eq readable dir sub base _ tried h0, map_fmts hdir hsub hbase, candidatesIn]

/-! ## All directories -/

/-- The loop over the directories, from any round on: the list is on the top again. -/
theorem tryDirs_eq (readable : Bytes → Bool) {sub base : Bytes} (hsub : 0 ∉ sub)
    (hbase : 0 ∉ base) (st : LuaStack) :
    ∀ (rest done : List CString) (tried : Bytes),
      ∃ st', tryDirs readable sub base (List.range' (done.length + 1) rest.length)
          (.table (done ++ rest) :: st) tried =
        some (st', searchNoting readable noFile (candidates rest sub base) tried)
  | [], done, tried => ⟨.table done :: st, by simp [tryDirs, candidates]⟩
  | dir :: rest, done, tried => by
      have hget : rawgeti (.table (done ++ dir :: rest) :: st) (done.length + 1) =
          some (.string dir.bytes :: .table (done ++ dir :: rest) :: st) := by
        simp [rawgeti]
      have hcands : candidates (dir :: rest) sub base =
          candidatesIn sub base dir.bytes ++ candidates rest sub base := List.flatMap_cons
      rw [List.length_cons, List.range'_succ, tryDirs, hget, hcands, searchNoting_append]
      simp only [Option.bind_eq_bind, Option.bind_some, tostring,
        tryFmts_fmts readable dir.noNul hsub hbase]
      cases hfirst : searchNoting readable noFile (candidatesIn sub base dir.bytes) tried with
      | inl cand => exact ⟨_, rfl⟩
      | inr tried =>
          have hmore := tryDirs_eq readable hsub hbase st rest (done ++ [dir]) tried
          rw [List.length_append, List.append_assoc] at hmore
          exact hmore

/-- The whole message is a C string. -/
theorem not_mem_flatMap_noFile {dirs : List CString} {sub base : Bytes} (hsub : 0 ∉ sub)
    (hbase : 0 ∉ base) : 0 ∉ (candidates dirs sub base).flatMap noFile := by
  intro h
  obtain ⟨cand, hcand, h0⟩ := List.mem_flatMap.mp h
  obtain ⟨dir, -, hin⟩ := List.mem_flatMap.mp hcand
  obtain ⟨file, hfile, rfl⟩ := List.mem_map.mp (List.mem_of_mem_filter hin)
  have hpath := not_mem_path dir.noNul hsub hbase hfile
  have hno : 0 ∉ ascii "\n\tno file '" := by decide
  have hquote : 0 ∉ ascii "'" := by decide
  rw [noFile, List.mem_append, List.mem_append] at h0
  rcases h0 with (h0 | h0) | h0
  · exact hno h0
  · exact hpath h0
  · exact hquote h0

/-- The name is cut behind its last slash. -/
theorem subOf_baseOf (name : Bytes) :
    name = subOf name ++ baseOf name ∧ 47 ∉ baseOf name ∧
      (subOf name = [] ∨ (subOf name).getLast? = some 47) := by
  refine ⟨(List.rdropWhile_append_rtakeWhile ..).symm, fun h => ?_, ?_⟩
  · exact absurd (List.mem_rtakeWhile_imp h) (by simp)
  · by_cases hnil : subOf name = []
    · exact .inl hnil
    · have hlast : ¬ decide ((subOf name).getLast hnil ≠ 47) = true :=
        List.rdropWhile_last_not _ _ hnil
      rw [List.getLast?_eq_some_getLast hnil]
      exact .inr (congrArg some (by simpa using hlast))

/-- A relative name is looked for at the candidates, in their order. -/
theorem findLib_candidates (readable : Bytes → Bool) (dirs : List CString) (name : CString)
    (hrelative : name.bytes.head? ≠ some 47) (hbase : baseOf name.bytes ≠ [])
    (hsub : (subOf name.bytes).length < 1024) :
    findLib readable dirs name =
      some (.returned
        (match (candidates dirs (subOf name.bytes) (baseOf name.bytes)).find? readable with
        | some cand => [.string cand]
        | none =>
            [.nil,
              .string (notFound dirs name
                (candidates dirs (subOf name.bytes) (baseOf name.bytes)))])) := by
  have hs0 : 0 ∉ subOf name.bytes := fun h => name.noNul (subOf_subset _ h)
  have hb0 : 0 ∉ baseOf name.bytes := fun h => name.noNul (baseOf_subset _ h)
  obtain ⟨st, hst⟩ := tryDirs_eq readable hs0 hb0 [.string name.bytes] dirs [] []
  rw [List.length_nil, List.nil_append] at hst
  rw [findLib, subSize, if_neg (by omega), if_neg hrelative, if_neg hbase]
  simp only [Option.bind_eq_bind, hst, Option.bind_some]
  rw [searchNoting]
  cases hfind : (candidates dirs (subOf name.bytes) (baseOf name.bytes)).find? readable with
  | some cand => rfl
  | none =>
      have hmsg : cstr ((candidates dirs (subOf name.bytes) (baseOf name.bytes)).flatMap noFile) =
          (candidates dirs (subOf name.bytes) (baseOf name.bytes)).flatMap noFile :=
        cstr_eq_self_iff.mpr (not_mem_flatMap_noFile hs0 hb0)
      by_cases hdirs : dirs = []
      · subst hdirs
        simp [returnTop, notFound]
      · simp [returnTop, notFound, hdirs, hmsg]

/-- **The search.**  A relative name is looked for at the candidates, in their order: the
first that can be read is returned, and where none can, `nil` and the message that names
them all.  The two parts of the name in these paths are what stands up to its last slash and
what stands behind it. -/
theorem findLib_eq (readable : Bytes → Bool) (dirs : List CString) (name : CString)
    (hrelative : name.bytes.head? ≠ some 47) (hbase : baseOf name.bytes ≠ [])
    (hsub : (subOf name.bytes).length < 1024) :
    (name.bytes = subOf name.bytes ++ baseOf name.bytes ∧ 47 ∉ baseOf name.bytes ∧
        (subOf name.bytes = [] ∨ (subOf name.bytes).getLast? = some 47)) ∧
      findLib readable dirs name =
        some (.returned
          (match (candidates dirs (subOf name.bytes) (baseOf name.bytes)).find? readable with
          | some cand => [.string cand]
          | none =>
              [.nil,
                .string (notFound dirs name
                  (candidates dirs (subOf name.bytes) (baseOf name.bytes)))])) :=
  ⟨subOf_baseOf name.bytes, findLib_candidates readable dirs name hrelative hbase hsub⟩

/-- The second directory holds the library, without `lib`. -/
theorem findLib_raylib :
    findLib (fun cand => cand = ascii "b/native/raylib.so")
        [⟨ascii "a", by decide⟩, ⟨ascii "b", by decide⟩]
        ⟨ascii "native/raylib", by decide⟩ =
      some (.returned [.string (ascii "b/native/raylib.so")]) :=
  (findLib_eq _ _ _ (by decide) (by decide) (by decide)).2.trans (by decide)

end Tmg
