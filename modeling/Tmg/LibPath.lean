/-
# `Tmg.LibPath` — `TMG_LIB_PATH`

`setup_lib_path` walks the variable with a pointer, one entry from colon to colon at a
time, and builds three things in step: the list of directories that `tmg.lib_path` shows
and `tmg.find_lib` searches, and what it puts in front of `package.path` and
`package.cpath`.

    TMG_LIB_PATH    /opt/a/::b        dirs    /opt/a  b
    package.path    /opt/a/?.lua;/opt/a/?/init.lua;b/?.lua;b/?/init.lua; ++ the old one

`setupLibPath_eq` says what comes out in terms of the variable alone: `libDirs`, the
entries that are not empty, each without its trailing slashes.
-/
import Tmg.Str
import Tmg.Lib.Strip

namespace Tmg

open Lib

/-- The variables of the loop: the table `dirs`, and the builders `lpath` and `cpath`. -/
structure LibPath where
  dirs : List Bytes
  lpath : Bytes
  cpath : Bytes
deriving DecidableEq, Repr

/-- `while (len > 1 && p[len - 1] == '/') len--` -/
def trimLen (p : Bytes) : Nat → Nat
  | len + 2 => if p[len + 1]? = some 47 then trimLen p (len + 1) else len + 2
  | len => len

/-- The body of the loop, for the entry between two colons. -/
def pushEntry (st : LibPath) (entry : Bytes) : LibPath :=
  if entry.length > 0 then
    let dir := entry.take (trimLen entry entry.length)
    { dirs := st.dirs ++ [dir]
      lpath := strPush (strPush (strPush (strPush st.lpath dir) (ascii "/?.lua;")) dir)
        (ascii "/?/init.lua;")
      cpath := strPush (strPush st.cpath dir) (ascii "/?.so;") }
  else st

/-- `for (const char *p = env; p && *p; )` -/
def scanEnv (st : LibPath) (p : Bytes) : LibPath :=
  if p = [] then st
  else
    let st := pushEntry st (p.takeWhile (· ≠ 58))
    match h : p.dropWhile (· ≠ 58) with
    | [] => st
    | _ :: rest =>
        have : rest.length < p.length := by
          have hle := (List.dropWhile_suffix (l := p) (· ≠ 58)).length_le
          rw [h, List.length_cons] at hle
          exact hle
        scanEnv st rest
termination_by p.length

/-- The fields of the table `package` that are written. -/
structure Package where
  path : Bytes
  cpath : Bytes
deriving DecidableEq, Repr

/-- `setup_lib_path`: the list it stores, and the table `package` (`none` where the global
is no table). -/
def setupLibPath (env : Option CString) (package : Option Package) : List Bytes × Option Package :=
  let st : LibPath := { dirs := [], lpath := [], cpath := [] }
  let st := match env with
    | none => st
    | some env => scanEnv st env.bytes
  (st.dirs,
    if st.dirs.length > 0 then
      package.map fun pkg => { path := st.lpath ++ pkg.path, cpath := st.cpath ++ pkg.cpath }
    else package)

/-! ## What the variable means -/

/-- An entry without its trailing slashes; a slash is left of one that is made of them. -/
def stripSlashes (entry : Bytes) : Bytes :=
  if ∀ c ∈ entry, c = 47 then [47] else entry.rdropWhile (· = 47)

/-- The directories of a list of entries. -/
def dirsOf (entries : List Bytes) : List Bytes := (entries.filter (· ≠ [])).map stripSlashes

/-- The directories of `TMG_LIB_PATH`. -/
def libDirs : Option CString → List Bytes
  | none => []
  | some env => dirsOf (env.bytes.splitOn 58)

/-- What a directory contributes to `package.path`. -/
def luaPatterns (dir : Bytes) : Bytes := dir ++ ascii "/?.lua;" ++ dir ++ ascii "/?/init.lua;"

/-- What a directory contributes to `package.cpath`. -/
def soPattern (dir : Bytes) : Bytes := dir ++ ascii "/?.so;"

/-! ## One entry -/

theorem stripSlashes_concat_slash (entry : Bytes) :
    stripSlashes (entry ++ [47]) = stripSlashes entry := by
  have hall : (∀ c ∈ entry ++ [47], c = 47) ↔ ∀ c ∈ entry, c = 47 := by simp [or_imp]
  rw [stripSlashes, stripSlashes]
  by_cases hs : ∀ c ∈ entry, c = 47
  · rw [if_pos (hall.mpr hs), if_pos hs]
  · rw [if_neg (fun h => hs (hall.mp h)), if_neg hs, List.rdropWhile_concat_pos _ _ _ (by simp)]

theorem stripSlashes_concat {entry : Bytes} {c : Byte} (hc : c ≠ 47) :
    stripSlashes (entry ++ [c]) = entry ++ [c] := by
  rw [stripSlashes, if_neg (fun h => hc (h c (by simp))),
    List.rdropWhile_concat_neg _ _ _ (by simpa using hc)]

/-- The slashes are counted off from the end. -/
theorem take_trimLen (p : Bytes) (len : Nat) (hlen : len < p.length) :
    p.take (trimLen p (len + 1)) = stripSlashes (p.take (len + 1)) := by
  induction len with
  | zero =>
      cases p with
      | nil => exact absurd hlen (by simp)
      | cons c p =>
          by_cases hc : c = 47
          · simp [trimLen, stripSlashes, hc]
          · simpa [trimLen] using (stripSlashes_concat (c := c) hc : stripSlashes ([] ++ [c]) = _).symm
  | succ len ih =>
      have hlast : p.take (len + 2) = p.take (len + 1) ++ [p[len + 1]] := by
        rw [List.take_append_getElem]
      rw [trimLen, List.getElem?_eq_getElem hlen, hlast]
      by_cases hc : p[len + 1] = 47
      · rw [hc, if_pos rfl, ih (by omega), stripSlashes_concat_slash]
      · rw [if_neg (by simpa using hc), stripSlashes_concat hc, hlast]

theorem stripSlashes_subset {entry : Bytes} (h : entry ≠ []) : stripSlashes entry ⊆ entry := by
  intro c hc
  rw [stripSlashes] at hc
  split at hc
  · next hs =>
      obtain ⟨b, rest, rfl⟩ := List.exists_cons_of_ne_nil h
      rw [List.mem_singleton.mp hc, ← hs b (List.mem_cons_self ..)]
      exact List.mem_cons_self ..
  · exact (List.rdropWhile_prefix _ _).subset hc

/-- The list and the two builders with these directories added, in step. -/
def LibPath.add (st : LibPath) (dirs : List Bytes) : LibPath :=
  { dirs := st.dirs ++ dirs
    lpath := st.lpath ++ dirs.flatMap luaPatterns
    cpath := st.cpath ++ dirs.flatMap soPattern }

@[simp] theorem LibPath.add_nil (st : LibPath) : st.add [] = st := by simp [LibPath.add]

theorem LibPath.add_add (st : LibPath) (dirs more : List Bytes) :
    (st.add dirs).add more = st.add (dirs ++ more) := by
  simp [LibPath.add]

/-- One entry: it is dropped or adds one directory, to all three. -/
theorem pushEntry_eq (st : LibPath) {entry : Bytes} (h0 : 0 ∉ entry) :
    pushEntry st entry = st.add (dirsOf [entry]) := by
  rw [pushEntry]
  rcases List.eq_nil_or_concat' entry with rfl | ⟨front, c, hentry⟩
  · simp [dirsOf]
  · have hne : entry ≠ [] := by simp [hentry]
    obtain ⟨len, hlen⟩ : ∃ len, entry.length = len + 1 := ⟨front.length, by simp [hentry]⟩
    have hdir : entry.take (trimLen entry entry.length) = stripSlashes entry := by
      rw [hlen, take_trimLen entry len (by omega), ← hlen, List.take_length]
    have hcstr : cstr (stripSlashes entry) = stripSlashes entry :=
      cstr_eq_self_iff.mpr fun hz => h0 (stripSlashes_subset hne hz)
    have hlua : cstr (ascii "/?.lua;") = ascii "/?.lua;" := by decide
    have hinit : cstr (ascii "/?/init.lua;") = ascii "/?/init.lua;" := by decide
    have hso : cstr (ascii "/?.so;") = ascii "/?.so;" := by decide
    rw [if_pos (by omega), hdir]
    simp [LibPath.add, dirsOf, hne, luaPatterns, soPattern, strPush, hcstr, hlua, hinit, hso]

/-! ## The loop -/

theorem dirsOf_append (entries more : List Bytes) :
    dirsOf (entries ++ more) = dirsOf entries ++ dirsOf more := by
  simp [dirsOf]

theorem not_mem_takeWhile_ne (c : Byte) (p : Bytes) : c ∉ p.takeWhile (· ≠ c) :=
  fun h => by simpa using List.mem_takeWhile_imp h

/-- The whole loop, by the entries of the variable. -/
theorem scanEnv_eq (st : LibPath) {p : Bytes} (h0 : 0 ∉ p) :
    scanEnv st p = st.add (dirsOf (p.splitOn 58)) := by
  induction hn : p.length using Nat.strong_induction_on generalizing st p with
  | h n ih =>
      have hfirst : 0 ∉ p.takeWhile (· ≠ 58) :=
        fun h => h0 ((List.takeWhile_prefix _).subset h)
      have hsplit := List.takeWhile_append_dropWhile (p := (· ≠ (58 : Byte))) (l := p)
      rw [scanEnv]
      by_cases hp : p = []
      · subst hp
        simp [dirsOf]
      · rw [if_neg hp, pushEntry_eq st hfirst]
        split
        · next hrest =>
            rw [hrest, List.append_nil] at hsplit
            rw [hsplit, List.splitOn_eq_singleton (hsplit ▸ not_mem_takeWhile_ne 58 p)]
        · next c rest hrest =>
            have hc : c = 58 := by
              have hhead := List.head?_dropWhile_not (· ≠ (58 : Byte)) p
              rw [hrest] at hhead
              simpa using hhead
            subst hc
            rw [hrest] at hsplit
            have hlt : rest.length < n := by
              rw [← hn, ← hsplit, List.length_append, List.length_cons]
              omega
            have hz : 0 ∉ rest := fun h => h0 (hsplit ▸ by simp [h])
            have hentries : p.splitOn 58 = p.takeWhile (· ≠ 58) :: rest.splitOn 58 := by
              conv_lhs => rw [← hsplit]
              exact List.splitOn_append_cons_self_of_not_mem (not_mem_takeWhile_ne 58 p) rest
            rw [ih rest.length hlt _ hz rfl, LibPath.add_add, hentries, ← dirsOf_append,
              List.singleton_append]

/-- **`TMG_LIB_PATH`.**  The stored list is the list of its directories; `package.path` and
`package.cpath` have the patterns of these in front; without a directory they are left as
they are. -/
theorem setupLibPath_eq (env : Option CString) (package : Option Package) :
    setupLibPath env package =
      (libDirs env,
        if libDirs env = [] then package
        else package.map fun pkg =>
          { path := (libDirs env).flatMap luaPatterns ++ pkg.path
            cpath := (libDirs env).flatMap soPattern ++ pkg.cpath }) := by
  cases env with
  | none => simp [setupLibPath, libDirs]
  | some env =>
      have hscan := scanEnv_eq { dirs := [], lpath := [], cpath := [] } env.noNul
      rw [setupLibPath, hscan]
      by_cases hdirs : dirsOf (env.bytes.splitOn 58) = []
      · simp [LibPath.add, libDirs, hdirs]
      · simp [LibPath.add, libDirs, hdirs, List.length_pos_iff]

example : libDirs (some ⟨ascii "/opt/a/::b:///", by decide⟩) =
    [ascii "/opt/a", ascii "b", ascii "/"] := by decide

end Tmg
