/-
# `Tmg.Latex.Compile` — the command line of `L.compile`

`L.compile(path, o)` runs a TeX engine in the directory of the file it is given:

    cd DIR && ENGINE ARGS FILE > LOG 2>&1

and hands this line to `os.execute`, that is to `sh -c`.  Every string in it that does not
come from the source goes through `shq`, which puts it in single quotes and writes each
quote of its own as `'\''`.  So nothing in a string is seen by the shell
(`compile_tokens`): the line is cut into the words and operators above, each word is the
string it was made of, byte for byte, and every byte of it is quoted.
-/
import Tmg.Str
import Tmg.Lib.Quoting
import Tmg.Lib.Strip
import Mathlib.Data.List.DropRight

namespace Tmg.Latex

open Lib

/-- `shq` -/
def shq (s : Bytes) : Bytes :=
  ascii "'" ++ s.flatMap (fun c => if c = 39 then ascii "'\\''" else [c]) ++ ascii "'"

/-- `path:match("^(.*)/([^/]*)$")` -/
def matchPath (path : Bytes) : Option (Bytes × Bytes) :=
  if 47 ∈ path then
    some ((path.rdropWhile (· ≠ 47)).dropLast, path.rtakeWhile (· ≠ 47))
  else none

/-- `dir` and `file` -/
def dirFile (path : Bytes) : Bytes × Bytes :=
  let (dir, file) := (matchPath path).getD (ascii ".", path)
  if dir = [] then (ascii "/", file) else (dir, file)

/-- The table `o`: `o.engine`, and the array `o.args`, empty if there is none. -/
structure CompileOptions where
  engine : Option Bytes
  args : List Bytes
deriving DecidableEq, Repr

namespace CompileOptions

/-- `o.engine or "latexmk"` -/
def engineName (o : CompileOptions) : Bytes := o.engine.getD (ascii "latexmk")

/-- `args`, before quoting. -/
def allArgs (o : CompileOptions) : List Bytes :=
  let args := [ascii "-interaction=nonstopmode", ascii "-halt-on-error"]
  let args := if o.engineName = ascii "latexmk" then ascii "-pdf" :: args else args
  args ++ o.args

end CompileOptions

/-- The string that is given to `os.execute`; `log` is `os.tmpname()`. -/
def compileCommand (path : Bytes) (o : CompileOptions) (log : Bytes) : Bytes :=
  let (dir, file) := dirFile path
  ascii "cd " ++ shq dir ++ ascii " && " ++ shq o.engineName ++ ascii " "
    ++ (ascii " ").intercalate (o.allArgs.map shq) ++ ascii " " ++ shq file ++ ascii " > " ++ shq log
    ++ ascii " 2>&1"

/-! ## The path -/

theorem matchPath_slash {dir file : Bytes} (h : 47 ∉ file) :
    matchPath (dir ++ 47 :: file) = some (dir, file) := by
  have hne : ∀ c ∈ file, decide (c ≠ 47) = true := by
    intro c hc
    exact decide_eq_true fun h47 => h (h47 ▸ hc)
  have hsplit : dir ++ 47 :: file = (dir ++ [47]) ++ file := by simp
  have hdrop : (dir ++ 47 :: file).rdropWhile (· ≠ 47) = dir ++ [47] := by
    rw [hsplit, rdropWhile_append_right _ hne, List.rdropWhile_concat_neg _ _ _ (by simp)]
  have htake : (dir ++ 47 :: file).rtakeWhile (· ≠ 47) = file := by
    have hjoin := List.rdropWhile_append_rtakeWhile (p := fun c => decide (c ≠ 47))
      (l := dir ++ 47 :: file)
    rw [hdrop] at hjoin
    exact List.append_cancel_left (hjoin.trans hsplit)
  rw [matchPath, if_pos (by simp), hdrop, htake]
  simp

theorem dirFile_noSlash {path : Bytes} (h : 47 ∉ path) : dirFile path = (ascii ".", path) := by
  rw [dirFile, matchPath, if_neg h]
  rfl

theorem dirFile_slash {dir file : Bytes} (h : 47 ∉ file) :
    dirFile (dir ++ 47 :: file) = (if dir = [] then ascii "/" else dir, file) := by
  rw [dirFile, matchPath_slash h]
  by_cases hdir : dir = [] <;> simp [hdir]

/-! ## The command line -/

theorem shq_eq (s : Bytes) : shq s = Shell.singleQuoted s := by
  have hopen : ascii "'" = [39] := rfl
  have hquote : ascii "'\\''" = [39, 92, 39, 39] := rfl
  rw [shq, hopen, hquote, Shell.singleQuoted]
  rfl

/-- The words behind the engine: `-pdf` for `latexmk`, the two of every run, and those of the
table. -/
def argWords (engine : Bytes) (extra : List Bytes) : List Bytes :=
  (if engine = ascii "latexmk" then [ascii "-pdf"] else [])
    ++ [ascii "-interaction=nonstopmode", ascii "-halt-on-error"] ++ extra

/-- What the shell is to read. -/
def compileTokens (dir file engine : Bytes) (extra : List Bytes) (log : Bytes) :
    List Shell.Token :=
  [.word (.unquoted (ascii "cd")), .word (.quoted dir), .op (ascii "&&"), .word (.quoted engine)]
    ++ (argWords engine extra).map (fun a => .word (.quoted a))
    ++ [.word (.quoted file), .op (ascii ">"), .word (.quoted log),
      .ioNumber (ascii "2"), .op (ascii ">&"), .word (.unquoted (ascii "1"))]

theorem allArgs_eq (o : CompileOptions) : o.allArgs = argWords o.engineName o.args := by
  unfold CompileOptions.allArgs argWords
  split <;> rfl

theorem allArgs_ne_nil (o : CompileOptions) : o.allArgs ≠ [] := by
  unfold CompileOptions.allArgs
  split <;> simp

theorem reads_shq (s : Bytes) : Shell.Reads (shq s) (.quoted s) := shq_eq s ▸ Shell.reads_single s

/-- The line, piece by piece. -/
theorem compileCommand_eq (path : Bytes) (o : CompileOptions) (log : Bytes) :
    compileCommand path o log
      = ascii "cd" ++ 32 :: (shq (dirFile path).1 ++ 32 :: (ascii "&& " ++ (shq o.engineName ++
          32 :: (Shell.joined (o.allArgs.map shq) ++ 32 :: (shq (dirFile path).2 ++
            32 :: (ascii "> " ++ (shq log ++ 32 :: ascii "2>&1"))))))) := by
  have hcd : ascii "cd " = ascii "cd" ++ [32] := rfl
  have hand : ascii " && " = 32 :: ascii "&& " := rfl
  have hblank : ascii " " = [32] := rfl
  have hgreat : ascii " > " = 32 :: ascii "> " := rfl
  have hdup : ascii " 2>&1" = 32 :: ascii "2>&1" := rfl
  rw [compileCommand, hcd, hand, hblank, hgreat, hdup]
  simp only [List.append_assoc, List.cons_append, List.nil_append, Shell.joined]

theorem tokens_compileCommand (path : Bytes) (o : CompileOptions) (log : Bytes) :
    Shell.tokens (compileCommand path o log) =
      some (compileTokens (dirFile path).1 (dirFile path).2 o.engineName o.args log) := by
  have hcd : Shell.Reads (ascii "cd") (.unquoted (ascii "cd")) := rfl
  have hand : (ascii "&& ").foldlM Shell.step ⟨.gap, []⟩ = some ⟨.gap, [.op (ascii "&&")]⟩ := by
    decide
  have hgreat : (ascii "> ").foldlM Shell.step ⟨.gap, []⟩ = some ⟨.gap, [.op (ascii ">")]⟩ := by
    decide
  have hdup : Shell.tokens (ascii "2>&1")
      = some [.ioNumber (ascii "2"), .op (ascii ">&"), .word (.unquoted (ascii "1"))] := by
    decide
  have hargs : List.Forall₂ Shell.Reads (o.allArgs.map shq) (o.allArgs.map .quoted) := by
    rw [List.forall₂_map_left_iff, List.forall₂_map_right_iff, List.forall₂_same]
    exact fun a _ => reads_shq a
  rw [compileCommand_eq, Shell.tokens_word hcd, Shell.tokens_word (reads_shq _),
    Shell.tokens_append hand, Shell.tokens_word (reads_shq _),
    Shell.tokens_join_append hargs (by simpa using allArgs_ne_nil o),
    Shell.tokens_word (reads_shq _), Shell.tokens_append hgreat, Shell.tokens_word (reads_shq _), hdup]
  simp [compileTokens, allArgs_eq]

theorem zero_not_mem_shq {s : Bytes} (h : 0 ∉ s) : 0 ∉ shq s := by
  intro h0
  rw [shq, List.mem_append, List.mem_append, List.mem_flatMap] at h0
  rcases h0 with (h0 | ⟨c, hc, h0⟩) | h0
  · exact absurd h0 (by decide)
  · split at h0
    · exact absurd h0 (by decide)
    · rw [List.mem_singleton] at h0
      exact h (h0 ▸ hc)
  · exact absurd h0 (by decide)

/-- A path with a slash in it has a last one. -/
theorem exists_last_slash {path : Bytes} (h : 47 ∈ path) :
    ∃ dir file, path = dir ++ 47 :: file ∧ 47 ∉ file := by
  induction path with
  | nil => exact absurd h (by simp)
  | cons c path ih =>
      by_cases hmem : 47 ∈ path
      · obtain ⟨dir, file, rfl, hfile⟩ := ih hmem
        exact ⟨c :: dir, file, rfl, hfile⟩
      · have hc : c = 47 := by simpa [hmem, eq_comm] using h
        exact ⟨[], path, by rw [hc]; rfl, hmem⟩

theorem zero_not_mem_dirFile {path : Bytes} (h : 0 ∉ path) :
    0 ∉ (dirFile path).1 ∧ 0 ∉ (dirFile path).2 := by
  have hdot : (0 : Byte) ∉ ascii "." := by decide
  have hroot : (0 : Byte) ∉ ascii "/" := by decide
  by_cases hslash : 47 ∈ path
  · obtain ⟨dir, file, rfl, hfile⟩ := exists_last_slash hslash
    rw [dirFile_slash hfile]
    simp only [List.mem_append, List.mem_cons, not_or] at h
    refine ⟨?_, h.2.2⟩
    split
    · exact hroot
    · exact h.1
  · rw [dirFile_noSlash hslash]
    exact ⟨hdot, h⟩

theorem zero_not_mem_allArgs {o : CompileOptions} (h : ∀ a ∈ o.args, (0 : Byte) ∉ a) :
    ∀ a ∈ o.allArgs, (0 : Byte) ∉ a := by
  have hpdf : (0 : Byte) ∉ ascii "-pdf" := by decide
  have hmode : (0 : Byte) ∉ ascii "-interaction=nonstopmode" := by decide
  have hhalt : (0 : Byte) ∉ ascii "-halt-on-error" := by decide
  intro a ha
  unfold CompileOptions.allArgs at ha
  split at ha
  · simp only [List.cons_append, List.nil_append, List.mem_cons] at ha
    rcases ha with rfl | rfl | rfl | ha
    · exact hpdf
    · exact hmode
    · exact hhalt
    · exact h a ha
  · simp only [List.cons_append, List.nil_append, List.mem_cons] at ha
    rcases ha with rfl | rfl | ha
    · exact hmode
    · exact hhalt
    · exact h a ha

theorem zero_not_mem_compileCommand {path log : Bytes} {o : CompileOptions} (hpath : 0 ∉ path)
    (hlog : 0 ∉ log) (hengine : (0 : Byte) ∉ o.engineName)
    (hargs : ∀ a ∈ o.allArgs, (0 : Byte) ∉ a) : 0 ∉ compileCommand path o log := by
  have hfixed : ∀ s ∈ [ascii "cd", ascii "&& ", ascii "> ", ascii "2>&1"], (0 : Byte) ∉ s := by decide
  have hjoined : 0 ∉ Shell.joined (o.allArgs.map shq) := by
    intro hmem
    rcases Shell.mem_joined hmem with h32 | ⟨e, he, h0⟩
    · exact absurd h32 (by decide)
    · obtain ⟨a, ha, rfl⟩ := List.mem_map.mp he
      exact zero_not_mem_shq (hargs a ha) h0
  have hblank : (0 : Byte) ≠ 32 := by decide
  obtain ⟨hdir, hfile⟩ := zero_not_mem_dirFile hpath
  simp only [List.forall_mem_cons] at hfixed
  rw [compileCommand_eq]
  simp only [List.mem_append, List.mem_cons, hfixed, hblank, zero_not_mem_shq hdir,
    zero_not_mem_shq hfile, zero_not_mem_shq hengine, zero_not_mem_shq hlog, hjoined, or_self,
    not_false_eq_true]

/-- `file` is what stands behind the last slash of the path, and `dir` what stands before it,
`/` where that is nothing; a path without a slash is a file of the working directory. -/
def PathParts (path dir file : Bytes) : Prop :=
  (47 ∉ path ∧ dir = ascii "." ∧ file = path) ∨
    ∃ before, path = before ++ 47 :: file ∧ 47 ∉ file ∧
      dir = if before = [] then ascii "/" else before

theorem pathParts_dirFile (path : Bytes) : PathParts path (dirFile path).1 (dirFile path).2 := by
  by_cases hslash : 47 ∈ path
  · obtain ⟨before, file, rfl, hfile⟩ := exists_last_slash hslash
    rw [dirFile_slash hfile]
    exact .inr ⟨before, rfl, hfile, rfl⟩
  · rw [dirFile_noSlash hslash]
    exact .inl ⟨hslash, rfl, rfl⟩

/-- **The shell reads the words that `L.compile` means**, whatever the strings are. -/
theorem compile_tokens (path log : Bytes) (o : CompileOptions) (hpath : 0 ∉ path) (hlog : 0 ∉ log)
    (hengine : ∀ e ∈ o.engine, (0 : Byte) ∉ e) (hargs : ∀ a ∈ o.args, (0 : Byte) ∉ a) :
    ∃ dir file, PathParts path dir file ∧
      Shell.tokens (cstr (compileCommand path o log)) =
        some (compileTokens dir file (o.engine.getD (ascii "latexmk")) o.args log) := by
  have hname : (0 : Byte) ∉ o.engineName := by
    have hdefault : (0 : Byte) ∉ ascii "latexmk" := by decide
    unfold CompileOptions.engineName
    cases hopt : o.engine with
    | none => exact hdefault
    | some e => exact hengine e hopt
  have hnul := zero_not_mem_compileCommand hpath hlog hname (zero_not_mem_allArgs hargs)
  rw [cstr_eq_self_iff.mpr hnul]
  exact ⟨_, _, pathParts_dirFile path, tokens_compileCommand path o log⟩

/-- A directory, an engine and an argument that would be commands if they were not quoted. -/
theorem compile_tokens_quotes :
    ∃ dir file, PathParts (ascii "it's; rm -rf $HOME/a b.tex") dir file ∧
      Shell.tokens (cstr (compileCommand (ascii "it's; rm -rf $HOME/a b.tex")
          ⟨some (ascii "`id`"), [ascii "*", ascii "'"]⟩ (ascii "/tmp/lua_x"))) =
        some (compileTokens dir file (ascii "`id`") [ascii "*", ascii "'"] (ascii "/tmp/lua_x")) :=
  compile_tokens (ascii "it's; rm -rf $HOME/a b.tex") (ascii "/tmp/lua_x")
    ⟨some (ascii "`id`"), [ascii "*", ascii "'"]⟩ (by decide) (by decide) (by rintro e ⟨⟩; decide)
    (by decide)

end Tmg.Latex
