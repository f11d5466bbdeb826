/-
# `Tmg.Raylib` — `lib/raylib.lua`

The binding to raylib is written to be run in its own directory: it opens `raylib/generated.h`, and
it loads its libraries by name.  `raylib.lua` runs it in any other directory.  It puts two functions
of its own into `ffi.load` and `io.open`, runs the binding's `init.lua`, and puts back what was there.

| | |
| :-- | :-- |
| `locate` | the library of a name, in the directories that are looked through before the system's |
| `loadLib`, `openFile` | what `ffi.load` and `io.open` do, as given and redirected |
| `raylib` | the module: its outcome, and the fields that it leaves |

`init.lua` is a tree of calls (`Calls`).  What answers them is a `System`: the file system and the
loader of the machine, by absolute paths, with a state of their own.

* The run of `init.lua` is one in its own directory: `raylib_run`.
* The two functions are put back whatever the run does, but not if there is none: `restores_iff`.
* The modules of the binding are found before all others, `raylib.physac` as a stub where its library is
  missing: `findModule_root`.
* `locate` and `tmg.find_lib` stop at the same directory, not always at the same file: `locate_findLib`.
-/
import Tmg.Lib.Calls
import Tmg.Require

namespace Tmg.Raylib

open Lib

/-! ## The surroundings -/

/-- The calls of `init.lua` that depend on where it is run or on a field that the module writes; `args`
is what `ffi.load` is given behind the name. -/
inductive Call (ν : Type*) where
  | ffiLoad (name : Bytes) (args : List (Option ν))
  | ioOpen (path mode : Bytes)
  | require (name : Bytes)

/-- The machine; `ν` are Lua's values, `none` stands for nil or for an error.  Every path is one from
the root directory, but for a library's that has no slash. -/
structure System (σ ν : Type*) where
  /-- the file can be opened to be read -/
  opens : Bytes → σ → Bool
  ioOpen : Bytes → Bytes → σ → Option ν × σ
  ffiLoad : Bytes → List (Option ν) → σ → Option ν × σ
  /-- what `require` finds with a path, and some modules preloaded -/
  require : Bytes → List Bytes → Bytes → σ → Option ν × σ
  loadfile : Bytes → σ → Except Bytes (Calls (Call ν) (Option ν) (Except ν ν))

/-- What the module is told. -/
structure Setting where
  /-- the working directory -/
  cwd : Bytes
  /-- `debug.getinfo(1, "S").source` -/
  source : Bytes
  /-- `RAYLIB_LUAJIT_DIR` -/
  dir : Option Bytes
  /-- `tmg.lib_path`, or nothing -/
  libPath : List Bytes
  ext : Bytes

/-- A file as seen from a directory. -/
def resolve (cwd path : Bytes) : Bytes :=
  if path.head? = some 47 then path else cwd ++ ascii "/" ++ path

/-- `[/\\]` -/
def isSep (c : Byte) : Bool := c = 47 || c = 92

/-- `source:match("^@(.*)[/\\][^/\\]*$") or "."` -/
def here (source : Bytes) : Bytes :=
  match source with
  | 64 :: file => if file.any isSep then (file.rdropWhile (!isSep ·)).dropLast else ascii "."
  | _ => ascii "."

namespace Setting

variable (e : Setting)

/-- `root` -/
def root : Bytes := e.dir.getD (here e.source ++ ascii "/raylib-luajit-generated")

/-- `init` -/
def init : Bytes := e.root ++ ascii "/raylib/init.lua"

/-- `dirs` of `locate` -/
def dirs : List Bytes := e.libPath ++ [e.root ++ ascii "/raylib", e.root]

end Setting

/-! ## The libraries -/

/-- The inner loop of `locate`. -/
def locateIn (opens : Bytes → Bool) (ext d : Bytes) : List Bytes → Option Bytes
  | [] => none
  | base :: bases =>
      let p := d ++ ascii "/" ++ base ++ ext
      if opens p then some p else locateIn opens ext d bases

/-- `locate` -/
def locate (opens : Bytes → Bool) (ext name : Bytes) : List Bytes → Option Bytes
  | [] => none
  | d :: dirs =>
      match locateIn opens ext d [name, ascii "lib" ++ name] with
      | some p => some p
      | none => locate opens ext name dirs

/-! ## The module -/

/-- What a field holds: what it was given, or the function that the module puts there. -/
inductive Fn where
  | given
  | redirect
deriving DecidableEq

/-- The fields that the module writes: `ffi.load`, `io.open`, `package.path`, `package.preload`. -/
structure Fields where
  load : Fn
  openF : Fn
  path : Bytes
  preload : List Bytes

/-- What the module raises: a text, or the value that `init.lua` raised. -/
inductive Raised (ν : Type*) where
  | text (msg : Bytes)
  | value (v : ν)

section

variable {σ ν : Type*} (sys : System σ ν) (e : Setting)

def realOpen (path mode : Bytes) (s : σ) : Option ν × σ := sys.ioOpen (resolve e.cwd path) mode s

def realLoad (name : Bytes) (args : List (Option ν)) (s : σ) : Option ν × σ :=
  sys.ffiLoad (if 47 ∈ name then resolve e.cwd name else name) args s

/-- `locate`, as things are. -/
def located (name : Bytes) (s : σ) : Option Bytes :=
  locate (fun p => sys.opens (resolve e.cwd p) s) e.ext name e.dirs

/-- `ffi.load` -/
def loadLib (f : Fn) (name : Bytes) (args : List (Option ν)) (s : σ) : Option ν × σ :=
  match f with
  | .given => realLoad sys e name args s
  | .redirect =>
      let p := if name.any isSep then none else located sys e name s
      realLoad sys e (p.getD name) args s

/-- `"raylib/generated.h"` -/
def header : Bytes := ascii "raylib/generated.h"

/-- `io.open` -/
def openFile (f : Fn) (path mode : Bytes) (s : σ) : Option ν × σ :=
  match f with
  | .given => realOpen sys e path mode s
  | .redirect =>
      let path := if path = header then e.root ++ ascii "/" ++ path else path
      realOpen sys e path mode s

/-- What a call is answered. -/
def answer (g : Fields) : Call ν → σ → Option ν × σ
  | .ffiLoad name args, s => loadLib sys e g.load name args s
  | .ioOpen path mode, s => openFile sys e g.openF path mode s
  | .require name, s => sys.require g.path g.preload name s

/-- `not locate("libphysac") and not pcall(real_load, "libphysac")` -/
def physac (g : Fields) (s : σ) : Fields × σ :=
  if (located sys e (ascii "libphysac") s).isSome then (g, s)
  else
    let (lib, s) := realLoad sys e (ascii "libphysac") [] s
    (if lib.isSome then g else { g with preload := g.preload ++ [ascii "raylib.physac"] }, s)

/-- The fields while `init.lua` runs. -/
def redirected (g : Fields) : Fields :=
  { load := .redirect
    openF := .redirect
    path := e.root ++ ascii "/?.lua;" ++ e.root ++ ascii "/?/init.lua;" ++ g.path
    preload := g.preload }

/-- The module, with a path and some modules preloaded: what it returns or raises, the fields, and the
state of the machine. -/
def raylib (path : Bytes) (preload : List Bytes) (s : σ) : Except (Raised ν) ν × Fields × σ :=
  let g : Fields := ⟨.given, .given, path, preload⟩
  if sys.opens (resolve e.cwd e.init) s then
    let (g, s) := physac sys e g s
    let g := redirected e g
    match sys.loadfile (resolve e.cwd e.init) s with
    -- `assert` raises outside of `pcall`, with the fields redirected
    | .error msg => (.error (.text msg), g, s)
    | .ok chunk =>
        let (rl, s) := chunk.run (answer sys e g) s
        let g := { g with load := .given, openF := .given }
        match rl with
        | .error v => (.error (.value v), g, s)
        | .ok v => (.ok v, g, s)
  else
    (.error (.text (ascii "raylib: cannot find " ++ e.init ++ ascii "\n" ++
      ascii "  is the submodule checked out?  git submodule update --init --recursive")), g, s)

end

/-! ## What is put back -/

section

variable {σ ν : Type*} {sys : System σ ν} {e : Setting}

/-- The module stops where there is no `init.lua`, or goes on with the fields redirected. -/
theorem raylib_missing {path : Bytes} {preload : List Bytes} {s : σ}
    (h : sys.opens (resolve e.cwd e.init) s = false) :
    (raylib sys e path preload s).2.1 = ⟨.given, .given, path, preload⟩ := by
  rw [raylib, if_neg (by simp [h])]

theorem raylib_unloaded {path : Bytes} {preload : List Bytes} {s : σ} {msg : Bytes}
    (h : sys.opens (resolve e.cwd e.init) s = true)
    (hload : sys.loadfile (resolve e.cwd e.init)
      (physac sys e ⟨.given, .given, path, preload⟩ s).2 = .error msg) :
    raylib sys e path preload s =
      (.error (.text msg), redirected e (physac sys e ⟨.given, .given, path, preload⟩ s).1,
        (physac sys e ⟨.given, .given, path, preload⟩ s).2) := by
  rw [raylib, if_pos h]
  dsimp only
  rw [hload]

theorem raylib_loaded {path : Bytes} {preload : List Bytes} {s : σ}
    {chunk : Calls (Call ν) (Option ν) (Except ν ν)} (h : sys.opens (resolve e.cwd e.init) s = true)
    (hload : sys.loadfile (resolve e.cwd e.init)
      (physac sys e ⟨.given, .given, path, preload⟩ s).2 = .ok chunk) :
    let ready := physac sys e ⟨.given, .given, path, preload⟩ s
    let ran := chunk.run (answer sys e (redirected e ready.1)) ready.2
    raylib sys e path preload s =
      (ran.1.mapError .value, { redirected e ready.1 with load := .given, openF := .given }, ran.2) := by
  intro ready ran
  rw [raylib, if_pos h]
  dsimp only
  rw [hload]
  cases hran : ran.1 <;> simp only [ran, ready] at hran <;> simp [hran, ran, ready, Except.mapError]

/-- **The functions are put back exactly when `init.lua` can be loaded, or is not there.**  Whatever it
does then, it may return or raise an error; but where `loadfile` fails, `ffi.load` and `io.open` stay
redirected for the rest of the program. -/
theorem restores_iff (path : Bytes) (preload : List Bytes) (s : σ) :
    ((raylib sys e path preload s).2.1.load = .given ∧
        (raylib sys e path preload s).2.1.openF = .given) ↔
      (sys.opens (resolve e.cwd e.init) s = true →
        ∃ chunk, sys.loadfile (resolve e.cwd e.init)
          (physac sys e ⟨.given, .given, path, preload⟩ s).2 = .ok chunk) := by
  cases h : sys.opens (resolve e.cwd e.init) s with
  | false => simp [raylib_missing h]
  | true =>
      cases hload : sys.loadfile (resolve e.cwd e.init)
          (physac sys e ⟨.given, .given, path, preload⟩ s).2 with
      | error msg => simp [raylib_unloaded h hload, redirected]
      | ok chunk => simp [raylib_loaded h hload]

/-! ## The run of `init.lua` -/

/-- The paths of a library that are looked at. -/
def candidates (ext name : Bytes) (dirs : List Bytes) : List Bytes :=
  dirs.flatMap fun d => [d ++ ascii "/" ++ name ++ ext, d ++ ascii "/" ++ (ascii "lib" ++ name) ++ ext]

theorem locate_eq (opens : Bytes → Bool) (ext name : Bytes) (dirs : List Bytes) :
    locate opens ext name dirs = (candidates ext name dirs).find? opens := by
  induction dirs with
  | nil => rfl
  | cons d dirs ih =>
      have hdirs : candidates ext name (d :: dirs) =
          [d ++ ascii "/" ++ name ++ ext, d ++ ascii "/" ++ (ascii "lib" ++ name) ++ ext] ++
            candidates ext name dirs := rfl
      have hin : locateIn opens ext d [name, ascii "lib" ++ name] =
          [d ++ ascii "/" ++ name ++ ext, d ++ ascii "/" ++ (ascii "lib" ++ name) ++ ext].find? opens := by
        cases h : opens (d ++ ascii "/" ++ name ++ ext) <;>
          cases h' : opens (d ++ ascii "/" ++ (ascii "lib" ++ name) ++ ext) <;>
          simp only [locateIn, List.find?_cons, h, h'] <;> rfl
      rw [locate, hin, hdirs, List.find?_append, ih]
      cases [d ++ ascii "/" ++ name ++ ext, d ++ ascii "/" ++ (ascii "lib" ++ name) ++ ext].find? opens <;>
        rfl

/-- A file in a directory, as seen from another one. -/
theorem resolve_append {d : Bytes} (hd : d ≠ []) (cwd file : Bytes) :
    resolve cwd (d ++ file) = resolve cwd d ++ file := by
  rw [resolve, resolve, List.head?_append_of_ne_nil _ hd]
  split
  · rfl
  · simp only [List.append_assoc]

theorem resolve_head {cwd path : Bytes} (h : path.head? = some 47) : resolve cwd path = path := if_pos h

/-- `init.lua` in the directory `dir`, when the loader looks for libraries in some directories before
it asks the system. -/
def answerIn (sys : System σ ν) (g : Fields) (dir ext : Bytes) (dirs : List Bytes) :
    Call ν → σ → Option ν × σ
  | .ffiLoad name args, s =>
      if name.any isSep then sys.ffiLoad (if 47 ∈ name then resolve dir name else name) args s
      else sys.ffiLoad (((candidates ext name dirs).find? (sys.opens · s)).getD name) args s
  | .ioOpen path mode, s => sys.ioOpen (resolve dir path) mode s
  | .require name, s => sys.require g.path g.preload name s

/-- The calls of a program that is at home in its own directory: of the files it opens by a relative
path there is one, and it loads libraries by a name or by an absolute path. -/
def AtHome : Call ν → Prop
  | .ffiLoad name _ => 47 ∈ name → name.head? = some 47
  | .ioOpen path _ => path = header ∨ path.head? = some 47
  | .require _ => True

/-- A library is found where it is seen from the root directory. -/
theorem located_resolve (he : e.root ≠ []) (hlib : ∀ d ∈ e.libPath, d ≠ []) (name : Bytes) (s : σ) :
    (located sys e name s).map (resolve e.cwd) =
      (candidates e.ext name (e.dirs.map (resolve e.cwd))).find? (sys.opens · s) := by
  have hdirs : ∀ d ∈ e.dirs, d ≠ [] := by
    intro d hd
    rcases List.mem_append.mp hd with hd | hd
    · exact hlib d hd
    · rcases List.mem_pair.mp hd with rfl | rfl
      · exact List.append_ne_nil_of_left_ne_nil he _
      · exact he
  have hcand : candidates e.ext name (e.dirs.map (resolve e.cwd)) =
      (candidates e.ext name e.dirs).map (resolve e.cwd) := by
    rw [candidates, candidates, List.flatMap_map, List.map_flatMap]
    refine List.flatMap_congr fun d hd => ?_
    have hfile : ∀ file, resolve e.cwd (d ++ file) = resolve e.cwd d ++ file :=
      resolve_append (hdirs d hd) e.cwd
    simp only [List.map_cons, List.map_nil, List.append_assoc, hfile]
  rw [located, locate_eq, hcand, List.find?_map]
  rfl

theorem mem_candidates {ext name p : Bytes} {dirs : List Bytes} (h : p ∈ candidates ext name dirs) :
    47 ∈ p := by
  have hslash : 47 ∈ ascii "/" := by decide
  obtain ⟨d, -, hp⟩ := List.mem_flatMap.mp h
  rcases List.mem_pair.mp hp with rfl | rfl <;> simp [hslash]

/-- The redirected functions answer as the directory of the binding would. -/
theorem answer_redirected (he : e.root ≠ []) (hlib : ∀ d ∈ e.libPath, d ≠ []) (g : Fields) {c : Call ν}
    (hc : AtHome c) (s : σ) :
    answer sys e (redirected e g) c s =
      answerIn sys (redirected e g) (resolve e.cwd e.root) e.ext (e.dirs.map (resolve e.cwd)) c s := by
  cases c with
  | ffiLoad name args =>
      have hname : ∀ dir, (if 47 ∈ name then resolve dir name else name) = name := by
        intro dir
        split
        · next hslash => exact resolve_head (hc hslash)
        · rfl
      show loadLib sys e .redirect name args s = _
      rw [answerIn, loadLib, ← located_resolve he hlib]
      split
      · rw [Option.getD_none, realLoad, hname, hname]
      -- a name without a separator: what is found has a slash, what is not is left to the system
      · cases hfound : located sys e name s with
        | none => rw [Option.getD_none, realLoad, hname, Option.map_none, Option.getD_none]
        | some p =>
            have hp : 47 ∈ p := by
              rw [located, locate_eq] at hfound
              exact mem_candidates (List.mem_of_find?_eq_some hfound)
            rw [Option.getD_some, realLoad, if_pos hp, Option.map_some, Option.getD_some]
  | ioOpen path mode =>
      show openFile sys e .redirect path mode s = _
      rw [answerIn, openFile]
      -- the header is taken from `root`, an absolute path stays as it is
      rcases hc with rfl | hpath
      · rw [if_pos rfl, realOpen, List.append_assoc, resolve_append he, ← List.append_assoc]
        rfl
      · have hne : path ≠ header := by
          rintro rfl
          exact absurd hpath (by decide)
        rw [if_neg hne, realOpen, resolve_head hpath, resolve_head hpath]
  | require name => rfl

theorem root_ne_nil (h : e.dir ≠ some []) : e.root ≠ [] := by
  rw [Setting.root]
  cases hdir : e.dir with
  | none => exact List.append_ne_nil_of_right_ne_nil _ (by decide)
  | some dir => exact fun hnil => h (hdir.trans (congrArg some hnil))

theorem libDirs_ne_nil {env : Option CString} {d : Bytes} (hd : d ∈ libDirs env) : d ≠ [] := by
  cases env with
  | none => exact absurd hd List.not_mem_nil
  | some env =>
      obtain ⟨entry, hentry, rfl⟩ := List.mem_map.mp hd
      have hne : entry ≠ [] := of_decide_eq_true (List.mem_filter.mp hentry).2
      rw [stripSlashes]
      split
      · exact List.cons_ne_nil 47 []
      · next hslashes =>
          exact fun hnil => hslashes fun c hc =>
            of_decide_eq_true (List.rdropWhile_eq_nil_iff.mp hnil c hc)

/-- **`init.lua` is run as in its own directory.**  If it can be loaded, and is at home there, the module
ends as it does there, with its libraries looked for in the directories of `locate` first. -/
theorem raylib_run (hdir : e.dir ≠ some []) {env : Option CString} (henv : e.libPath = libDirs env)
    (path : Bytes) (preload : List Bytes) (s : σ) {chunk : Calls (Call ν) (Option ν) (Except ν ν)}
    (hopens : sys.opens (resolve e.cwd e.init) s = true)
    (hload : sys.loadfile (resolve e.cwd e.init)
      (physac sys e ⟨.given, .given, path, preload⟩ s).2 = .ok chunk)
    (hhome : chunk.Only AtHome) :
    let ready := physac sys e ⟨.given, .given, path, preload⟩ s
    let ran := chunk.run (answerIn sys (redirected e ready.1) (resolve e.cwd e.root) e.ext
      (e.dirs.map (resolve e.cwd))) ready.2
    (raylib sys e path preload s).1 = ran.1.mapError .value ∧
      (raylib sys e path preload s).2.2 = ran.2 := by
  intro ready ran
  have hlib : ∀ d ∈ e.libPath, d ≠ [] := fun d hd => libDirs_ne_nil (henv ▸ hd)
  have hran : chunk.run (answer sys e (redirected e ready.1)) ready.2 = ran :=
    Calls.run_congr (fun c hc s => answer_redirected (root_ne_nil hdir) hlib ready.1 hc s) hhome ready.2
  rw [raylib_loaded hopens hload, hran]
  exact ⟨rfl, rfl⟩

/-- It loads a library and opens the header. -/
def sampleChunk : Calls (Call Bytes) (Option Bytes) (Except Bytes Bytes) :=
  .call (.ffiLoad (ascii "libraylib") []) fun lib =>
    .call (.ioOpen header (ascii "r")) fun file =>
      .done (.ok (lib.getD [] ++ ascii " " ++ file.getD []))

/-- A machine where what is loaded or opened is its own path. -/
def sample : System Unit Bytes where
  opens p _ :=
    p = ascii "/home/../lib/raylib-luajit-generated/raylib/init.lua" || p = ascii "/opt/libraylib.so"
  ioOpen path _ s := (some path, s)
  ffiLoad name _ s := (if name = ascii "libphysac" then none else some name, s)
  require _ _ name s := (some name, s)
  loadfile _ _ := .ok sampleChunk

/-- The module, required in `/home`. -/
def inHome : Setting where
  cwd := ascii "/home"
  source := ascii "@../lib/raylib.lua"
  dir := none
  libPath := [ascii "/opt"]
  ext := ascii ".so"

theorem raylib_run_home :
    (raylib sample inHome [] [] ()).1 =
      .ok (ascii "/opt/libraylib.so /home/../lib/raylib-luajit-generated/raylib/generated.h") :=
  have henv : inHome.libPath = libDirs (some ⟨ascii "/opt", by decide⟩) := by decide
  have hopens : sample.opens (resolve inHome.cwd inHome.init) () = true := by decide
  have hload : sample.loadfile (resolve inHome.cwd inHome.init)
      (physac sample inHome ⟨.given, .given, [], []⟩ ()).2 = .ok sampleChunk := rfl
  have hhome : sampleChunk.Only AtHome :=
    ⟨fun h => absurd h (by decide), fun _ => ⟨.inl rfl, fun _ => trivial⟩⟩
  (raylib_run (by decide) henv [] [] () hopens hload hhome).1.trans rfl

/-! ## The modules of the binding -/

/-- `libphysac` is neither in the directories nor known to the system. -/
def NoPhysac (sys : System σ ν) (e : Setting) (s : σ) : Prop :=
  located sys e (ascii "libphysac") s = none ∧ (realLoad sys e (ascii "libphysac") [] s).1 = none

theorem mem_physac {g : Fields} {s : σ} {name : Bytes} :
    name ∈ (physac sys e g s).1.preload ↔
      name ∈ g.preload ∨ name = ascii "raylib.physac" ∧ NoPhysac sys e s := by
  rw [physac, NoPhysac]
  cases located sys e (ascii "libphysac") s with
  | some p => simp
  | none => cases hload : (realLoad sys e (ascii "libphysac") [] s).1 <;> simp [hload]

theorem physac_path (g : Fields) (s : σ) : (physac sys e g s).1.path = g.path := by
  rw [physac]
  split
  · rfl
  · dsimp only
    split <;> rfl

/-- The fields of `package` when the module is done. -/
theorem raylib_fields {s : σ} (hopens : sys.opens (resolve e.cwd e.init) s = true) (path : Bytes)
    (preload : List Bytes) :
    (raylib sys e path preload s).2.1.path = luaPatterns e.root ++ path ∧
      ∀ name, name ∈ (raylib sys e path preload s).2.1.preload ↔
        name ∈ preload ∨ name = ascii "raylib.physac" ∧ NoPhysac sys e s := by
  have hpath : (redirected e (physac sys e ⟨.given, .given, path, preload⟩ s).1).path =
      luaPatterns e.root ++ path := by
    rw [redirected, physac_path]
    rfl
  cases hload : sys.loadfile (resolve e.cwd e.init)
      (physac sys e ⟨.given, .given, path, preload⟩ s).2 with
  | error msg =>
      rw [raylib_unloaded hopens hload]
      exact ⟨hpath, fun name => mem_physac⟩
  | ok chunk =>
      rw [raylib_loaded hopens hload]
      exact ⟨hpath, fun name => mem_physac⟩

/-- **What `require` finds in the binding's directory** once the module has begun to run `init.lua`: a
file there comes before all others, but for `raylib.physac`, which is a stub where `libphysac` is
missing. -/
theorem findModule_root {s : σ} (hopens : sys.opens (resolve e.cwd e.init) s = true) {path : Bytes}
    {preload : List Bytes} {w : Require.World}
    (hpath : w.path = (raylib sys e path preload s).2.1.path)
    (hpreload : ∀ name, w.preload name = true ↔ name ∈ (raylib sys e path preload s).2.1.preload)
    (hroot : Require.Plain e.root) {name file : Bytes}
    (hfile : (Require.luaFiles (Require.dotted name) e.root).find? w.readable = some file) :
    ((name ∈ preload ∨ name = ascii "raylib.physac" ∧ NoPhysac sys e s) →
        Require.findModule w name = .ok .preload) ∧
      (¬ (name ∈ preload ∨ name = ascii "raylib.physac" ∧ NoPhysac sys e s) →
        Require.findModule w name =
          (w.loadfile file).elim (.ok (.lua file)) fun msg =>
            .error (Require.loaderror name file msg)) := by
  obtain ⟨hpatterns, hstub⟩ := raylib_fields hopens path preload
  rw [hpatterns] at hpath
  have hfound : Require.findfile w.readable name w.path = .inl file := by
    refine Require.findfile_of_find ?_
    rw [hpath, Require.filesOf_luaPatterns hroot, List.find?_append, hfile, Option.some_or]
  constructor
  · intro h
    have hset : w.preload name = true := (hpreload name).mpr ((hstub name).mpr h)
    rw [Require.findModule, Require.askLoaders, Require.loaderPreload, if_pos hset]
  · intro h
    have hunset : ¬ w.preload name = true := fun hset => h ((hstub name).mp ((hpreload name).mp hset))
    rw [Require.findModule, Require.askLoaders, Require.loaderPreload, if_neg hunset]
    dsimp only
    rw [Require.askLoaders, Require.loaderLua, hfound]
    cases hload : w.loadfile file <;> simp [hload]

/-- A module next to `init.lua`. -/
theorem findModule_root_raygui :
    Require.findModule
        { readable := fun file => file = ascii "../lib/raylib-luajit-generated/raylib/raygui.lua"
          preload := fun name => name ∈ (raylib sample inHome [] [] ()).2.1.preload
          path := (raylib sample inHome [] [] ()).2.1.path
          cpath := [], loadfile := fun _ => none, loadfunc := fun _ _ => .loaded }
        (ascii "raylib.raygui") =
      .ok (.lua (ascii "../lib/raylib-luajit-generated/raylib/raygui.lua")) :=
  have hopens : sample.opens (resolve inHome.cwd inHome.init) () = true := by decide
  (findModule_root hopens rfl (fun _ => by simp) (by decide) (by decide)).2 (by simp [ascii])

/-! ## `tmg.find_lib` -/

/-- The library of a name in a directory. -/
def soPlain (name d : Bytes) : Bytes := d ++ ascii "/" ++ name ++ ascii ".so"

/-- The same with `lib`. -/
def soLib (name d : Bytes) : Bytes := d ++ ascii "/" ++ (ascii "lib" ++ name) ++ ascii ".so"

theorem subOf_plain {name : Bytes} (h : 47 ∉ name) : subOf name = [] := by
  rw [subOf, List.rdropWhile_eq_nil_iff]
  exact fun c hc => decide_eq_true fun h47 => h (h47 ▸ hc)

theorem baseOf_plain {name : Bytes} (h : 47 ∉ name) : baseOf name = name := by
  rw [baseOf, List.rtakeWhile_eq_self_iff]
  exact fun c hc => decide_eq_true fun h47 => h (h47 ▸ hc)

theorem candidates_plain {dirs : List CString} {name : Bytes} (hso : ¬ ascii ".so" <:+: name)
    (hfit : ∀ d ∈ dirs, (soLib name d.bytes).length < 4096) :
    Tmg.candidates dirs [] name = dirs.flatMap fun d => [soLib name d.bytes, soPlain name d.bytes] := by
  refine List.flatMap_congr fun d hd => ?_
  have hlib := hfit d hd
  have hplain : (soPlain name d.bytes).length < 4096 := by
    simp only [soLib, soPlain, List.length_append] at hlib ⊢
    omega
  have hfiles : (fileNames name).map (fun file => d.bytes ++ ascii "/" ++ [] ++ file) =
      [soLib name d.bytes, soPlain name d.bytes] := by
    rw [fileNames, if_neg hso]
    simp only [List.map_cons, List.map_nil, List.append_nil, soLib, soPlain, List.append_assoc]
  rw [candidatesIn, hfiles, List.filter_eq_self]
  intro cand hcand
  rcases List.mem_pair.mp hcand with rfl | rfl
  · exact decide_eq_true hlib
  · exact decide_eq_true hplain

/-- **`locate` and `tmg.find_lib` stop at the same directory of `TMG_LIB_PATH`**, and at the same file of
it unless both files are there: then one takes the name with `lib` and the other the one without.  Where
none of the directories has a library, `locate` goes on to the binding's own. -/
theorem locate_findLib (opens : Bytes → Bool) (dirs : List CString) (name : CString)
    (hplain : 47 ∉ name.bytes) (hne : name.bytes ≠ []) (hso : ¬ ascii ".so" <:+: name.bytes)
    (hfit : ∀ d ∈ dirs, (soLib name.bytes d.bytes).length < 4096) (more : List Bytes) :
    match dirs.find? fun d => opens (soLib name.bytes d.bytes) || opens (soPlain name.bytes d.bytes) with
    | none =>
        (∃ msg, findLib opens dirs name = some (.returned [.nil, .string msg])) ∧
          locate opens (ascii ".so") name.bytes (dirs.map (·.bytes) ++ more) =
            locate opens (ascii ".so") name.bytes more
    | some d =>
        findLib opens dirs name = some (.returned [.string
            (if opens (soLib name.bytes d.bytes) then soLib name.bytes d.bytes
            else soPlain name.bytes d.bytes)]) ∧
          locate opens (ascii ".so") name.bytes (dirs.map (·.bytes) ++ more) =
            some (if opens (soPlain name.bytes d.bytes) then soPlain name.bytes d.bytes
              else soLib name.bytes d.bytes) := by
  have hrelative : name.bytes.head? ≠ some 47 := fun h => hplain (List.mem_of_mem_head? h)
  have hfind := findLib_candidates opens dirs name hrelative (by rwa [baseOf_plain hplain])
    (by rw [subOf_plain hplain]; decide)
  rw [subOf_plain hplain, baseOf_plain hplain, candidates_plain hso hfit, find?_flatMap_pair] at hfind
  have hlocate : locate opens (ascii ".so") name.bytes (dirs.map (·.bytes) ++ more) =
      ((dirs.find? fun d => opens (soLib name.bytes d.bytes) || opens (soPlain name.bytes d.bytes)).map
        fun d => if opens (soPlain name.bytes d.bytes) then soPlain name.bytes d.bytes
          else soLib name.bytes d.bytes).or (locate opens (ascii ".so") name.bytes more) := by
    have hswap : (fun d : CString =>
          opens (soLib name.bytes d.bytes) || opens (soPlain name.bytes d.bytes)) =
        fun d => opens (soPlain name.bytes d.bytes) || opens (soLib name.bytes d.bytes) :=
      funext fun d => Bool.or_comm _ _
    rw [locate_eq, locate_eq, candidates, List.flatMap_append, List.flatMap_map, List.find?_append, hswap,
      ← find?_flatMap_pair]
    rfl
  rw [hlocate]
  split
  · next hnone =>
      rw [hnone] at hfind
      exact ⟨⟨_, hfind⟩, by rw [hnone]; rfl⟩
  · next d hsome =>
      rw [hsome] at hfind
      exact ⟨hfind, by rw [hsome]; rfl⟩

/-- Both files are in the second directory. -/
theorem locate_findLib_both :
    let opens : Bytes → Bool := fun p => p = ascii "b/m.so" || p = ascii "b/libm.so"
    findLib opens [⟨ascii "a", by decide⟩, ⟨ascii "b", by decide⟩] ⟨ascii "m", by decide⟩ =
        some (.returned [.string (ascii "b/libm.so")]) ∧
      locate opens (ascii ".so") (ascii "m") [ascii "a", ascii "b", ascii "root"] = some (ascii "b/m.so") :=
  locate_findLib (fun p => p = ascii "b/m.so" || p = ascii "b/libm.so")
    [⟨ascii "a", by decide⟩, ⟨ascii "b", by decide⟩] ⟨ascii "m", by decide⟩ (by decide) (by decide)
    (by decide) (by decide) [ascii "root"]
end

end Tmg.Raylib
