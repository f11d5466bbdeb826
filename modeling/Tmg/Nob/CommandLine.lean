/-
# `Tmg.Nob.CommandLine` — a command handed to a shell

`nob.get_c_dependencies` builds a command and runs its string form with `io.popen`, that
is with `sh -c`.  `Cmd:to_string` quotes what it finds to need it: an argument with a
blank or a tab in it goes in double quotes, any other as it is.  That is not what a shell
needs.  Written as it is, an argument must hold none of the bytes a shell looks at; in
double quotes `"`, `$`, the backquote and some backslashes still have a meaning:

    args                     -M  a.c  -DNAME="a b"
    string                   -M a.c "-DNAME="a b""
    what the shell reads     -M  a.c  -DNAME=a  b

`shellArgs_iff` is the exact list of what the arguments must not have.
-/
import Tmg.Nob.Command
import Tmg.Lib.Quoting

namespace Tmg.Nob

open Lib

/-- What the shell that `io.popen` starts reads as the arguments of the command, if the
string is a simple command of words that stand for themselves.  `popen` takes a C
string. -/
def Cmd.shellArgs (c : Cmd) : Option (List Bytes) := Shell.fields (cstr c.toString)

/-- `arg:find(" ") or arg:find("\t")` -/
def HasBlank (arg : Bytes) : Prop := 32 ∈ arg ∨ 9 ∈ arg

instance (arg : Bytes) : Decidable (HasBlank arg) := inferInstanceAs (Decidable (_ ∨ _))

/-- An argument that the shell reads as it is.  In double quotes: no `"`, `$` or
backquote, no backslash before a backslash or a newline, none at the end.  Without
quotes: at least one byte, none of them special to a shell, no `#` or `~` at the
beginning, no `*`, `?` or bracket expression. -/
def ReadsBack (arg : Bytes) : Prop :=
  if HasBlank arg then Shell.DoubleSafe arg
  else Shell.BareSafe arg ∧ (Shell.Word.unquoted arg).literal = true

/-- The word that an argument is written as. -/
def argWord (arg : Bytes) : Shell.Word :=
  if HasBlank arg then .quoted arg else .unquoted arg

/-- The condition on a command: every argument is read back, none has a zero byte, and the
first, where it is not quoted, is neither a reserved word nor an assignment. -/
structure Cmd.Readable (c : Cmd) : Prop where
  noNul : ∀ a ∈ c.args, 0 ∉ a
  readsBack : ∀ a ∈ c.args, ReadsBack a
  name : ∀ a ∈ c.args.head?, HasBlank a ∨ (Shell.Word.unquoted a).commandName = true

/-! ## One argument -/

@[simp] theorem text_argWord (arg : Bytes) : (argWord arg).text = arg := by
  unfold argWord
  split <;> simp

theorem quoteArg_of_blank {arg : Bytes} (h : HasBlank arg) :
    quoteArg arg = Shell.doubleQuoted arg := if_pos h

theorem quoteArg_of_noBlank {arg : Bytes} (h : ¬ HasBlank arg) : quoteArg arg = arg := if_neg h

/-- By itself, an argument is read as it is exactly when it is written as a text that
means itself. -/
theorem reads_quoteArg_iff {arg : Bytes} {w : Shell.Word} (hw : w.text = arg) :
    Shell.Reads (quoteArg arg) w ↔
      (if HasBlank arg then Shell.DoubleSafe arg else Shell.BareSafe arg) ∧ w = argWord arg := by
  by_cases h : HasBlank arg
  · rw [quoteArg_of_blank h, argWord, if_pos h, if_pos h]
    exact Shell.reads_double_iff hw
  · rw [quoteArg_of_noBlank h, argWord, if_neg h, if_neg h]
    exact Shell.reads_bare_iff hw

theorem blank_iff (c : Byte) : Shell.blank c = true ↔ c = 32 ∨ c = 9 := by
  rw [Shell.blank, decide_eq_true_iff, Shell.kind]
  split_ifs with h <;> simp [h]

/-- The quotes that `to_string` adds are neither delimiters nor blanks. -/
theorem balanced_quoteArg {arg : Bytes} {w : Shell.Word} (hw : w.text = arg) :
    Shell.Balanced (quoteArg arg) w := by
  subst hw
  by_cases h : HasBlank w.text
  · have hcount : ∀ p : Byte → Bool, p 34 = false →
        (Shell.doubleQuoted w.text).countP p = w.text.countP p := by
      intro p hp
      simp [Shell.doubleQuoted, List.countP_append, hp]
    rw [quoteArg_of_blank h]
    exact ⟨hcount _ (by decide), hcount _ (by decide), fun _ => ⟨34, _, rfl, .inr (by decide)⟩⟩
  · rw [quoteArg_of_noBlank h]
    refine ⟨rfl, rfl, fun hpos => absurd ?_ h⟩
    obtain ⟨c, hc, hblank⟩ := List.countP_pos_iff.mp hpos
    rcases (blank_iff c).mp hblank with rfl | rfl
    · exact .inl hc
    · exact .inr hc

/-! ## The whole command -/

theorem toString_eq_joined (c : Cmd) : c.toString = Shell.joined (c.args.map quoteArg) := rfl

theorem zero_not_mem_toString {c : Cmd} (h : ∀ a ∈ c.args, 0 ∉ a) : 0 ∉ c.toString := by
  intro hmem
  rw [toString_eq_joined] at hmem
  rcases Shell.mem_joined hmem with h32 | ⟨e, he, h0⟩
  · exact absurd h32 (by decide)
  · obtain ⟨a, ha, rfl⟩ := List.mem_map.mp he
    by_cases hb : HasBlank a
    · rw [quoteArg_of_blank hb] at h0
      simp [Shell.doubleQuoted, h a ha] at h0
    · rw [quoteArg_of_noBlank hb] at h0
      exact h a ha h0

/-- The words that the string is cut into, if they are to be the arguments. -/
theorem tokens_toString_iff {c : Cmd} {ws : List Shell.Word} (hws : ws.map Shell.Word.text = c.args) :
    Shell.tokens c.toString = some (ws.map .word) ↔
      ws = c.args.map argWord ∧
        ∀ a ∈ c.args, if HasBlank a then Shell.DoubleSafe a else Shell.BareSafe a := by
  have hall : List.Forall₂ Shell.Reads (c.args.map quoteArg) ws ↔
      ∀ w ∈ ws, (if HasBlank w.text then Shell.DoubleSafe w.text else Shell.BareSafe w.text) ∧
        w = argWord w.text := by
    rw [← hws, List.map_map, List.forall₂_map_left_iff, List.forall₂_same]
    exact forall₂_congr fun w _ => reads_quoteArg_iff rfl
  have hbal : List.Forall₂ Shell.Balanced (c.args.map quoteArg) ws := by
    rw [← hws, List.map_map, List.forall₂_map_left_iff, List.forall₂_same]
    exact fun w _ => balanced_quoteArg rfl
  have hline : Shell.tokens c.toString = some (ws.map .word) ↔
      List.Forall₂ Shell.Reads (c.args.map quoteArg) ws :=
    ⟨Shell.reads_of_tokens_join hbal, Shell.tokens_join⟩
  rw [hline, hall, ← hws, List.forall_mem_map]
  constructor
  · intro h
    refine ⟨?_, fun w hw => (h w hw).1⟩
    have hself : ws.map id = ws.map (argWord ∘ Shell.Word.text) :=
      List.map_congr_left fun w hw => (h w hw).2
    rwa [List.map_id, ← List.map_map] at hself
  · rintro ⟨heq, h⟩ w hw
    refine ⟨h w hw, ?_⟩
    rw [heq] at hw
    obtain ⟨a, -, rfl⟩ := List.mem_map.mp hw
    rw [text_argWord]

/-- What a quoted argument is not subject to. -/
theorem argWord_stands (arg : Bytes) :
    ((argWord arg).literal = true ↔ HasBlank arg ∨ (Shell.Word.unquoted arg).literal = true) ∧
      ((argWord arg).commandName = true ↔
        HasBlank arg ∨ (Shell.Word.unquoted arg).commandName = true) := by
  unfold argWord
  by_cases h : HasBlank arg
  · simp [h, Shell.quoted_stands]
  · simp [h]

theorem readsBack_iff (arg : Bytes) :
    ReadsBack arg ↔ (if HasBlank arg then Shell.DoubleSafe arg else Shell.BareSafe arg) ∧
      (argWord arg).literal = true := by
  rw [ReadsBack, (argWord_stands arg).1]
  by_cases h : HasBlank arg <;> simp [h]

/-- **The shell reads the arguments of a command back exactly when they are readable**: no
zero byte, in quoted arguments nothing that has a meaning in double quotes, in the others
nothing that has a meaning at all. -/
theorem shellArgs_iff (c : Cmd) : c.shellArgs = some c.args ↔ c.Readable := by
  constructor
  · intro h
    have hcstr : (0 : Byte) ∉ cstr c.toString := by
      intro h0
      have := List.mem_takeWhile_imp h0
      simp at this
    have hnul := Shell.not_mem_of_fields (by decide) h hcstr
    rw [Cmd.shellArgs, cstr_eq_self_iff.mpr (zero_not_mem_toString hnul)] at h
    obtain ⟨ws, htokens, hliteral, hname, htext⟩ := Shell.fields_eq_some_iff.mp h
    obtain ⟨rfl, hsafe⟩ := (tokens_toString_iff htext).mp htokens
    rw [List.forall_mem_map] at hliteral
    refine ⟨hnul, ?_, ?_⟩
    · exact fun a ha => (readsBack_iff a).mpr ⟨hsafe a ha, hliteral a ha⟩
    · intro a ha
      refine (argWord_stands a).2.mp (hname _ ?_)
      rw [List.head?_map, Option.mem_def.mp ha]
      rfl
  · rintro ⟨hnul, hback, hname⟩
    have hargs : (c.args.map argWord).map Shell.Word.text = c.args := by
      rw [List.map_map]
      exact (List.map_congr_left fun a _ => text_argWord a).trans (List.map_id _)
    rw [Cmd.shellArgs, cstr_eq_self_iff.mpr (zero_not_mem_toString hnul), Shell.fields_eq_some_iff]
    refine ⟨c.args.map argWord, (tokens_toString_iff hargs).mpr ⟨rfl, ?_⟩, ?_, ?_, hargs⟩
    · exact fun a ha => ((readsBack_iff a).mp (hback a ha)).1
    · rw [List.forall_mem_map]
      exact fun a ha => ((readsBack_iff a).mp (hback a ha)).2
    · intro w hw
      rw [List.head?_map] at hw
      obtain ⟨a, ha, rfl⟩ := Option.map_eq_some_iff.mp hw
      exact (argWord_stands a).2.mpr (hname a ha)

/-- `gcc -M a.c -DNAME="a b"`, quoted for its blank: the shell reads one argument more. -/
theorem shellArgs_split :
    let c : Cmd := ⟨[ascii "gcc", ascii "-M", ascii "a.c", ascii "-DNAME=\"a b\""]⟩
    c.toString = ascii "gcc -M a.c \"-DNAME=\"a b\"\"" ∧
      c.shellArgs = some [ascii "gcc", ascii "-M", ascii "a.c", ascii "-DNAME=a", ascii "b"] ∧
      c.shellArgs ≠ some c.args := by
  decide

end Tmg.Nob
