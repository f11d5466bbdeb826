/-
# `Tmg.Nob.Command` — commands, processes and how their end is read

`Cmd:run_async` starts a process, `nob.wait_proc` waits for it and turns the way it
ended into a return or an error.  On POSIX the way a process ended is a status word,

    exited with code c       c <<< 8
    killed by signal s       s, and 0x80 if it left a core

of which `wait_proc` reads the exit code field only.  Two things go wrong there.  A
signal leaves that field zero, so a crash is read as success; and the error for a
code that is not zero is built from `exit_code[0]`, an index into a number, so what
is raised is Lua's complaint about that and not the NOB error (the Windows branch,
where `exit_code` is an array, raises the NOB error).

The operating system is a `World`: which attempts to start a process succeed, and what
waiting for each process gives.
-/
import Tmg.Str

namespace Tmg.Nob

/-- `Cmd` -/
structure Cmd where
  args : List Bytes
deriving DecidableEq, Repr

/-- `arg:find(" ") or arg:find("\t")`, then `string.format('"%s"', arg)`. -/
def quoteArg (arg : Bytes) : Bytes :=
  if 32 ∈ arg ∨ 9 ∈ arg then ascii "\"" ++ arg ++ ascii "\"" else arg

/-- `Cmd:to_string` -/
def Cmd.toString (c : Cmd) : Bytes := (ascii " ").intercalate (c.args.map quoteArg)

/-- The table that `run_async` returns: `pid` or `handle`, and `cmd`. -/
structure Proc where
  pid : Nat
  cmd : Bytes
deriving DecidableEq, Repr

/-- What is raised. -/
inductive NobError where
  | forkFailed
  | createProcessFailed
  | cmdFailed (code : Nat) (cmd : Bytes)
  | indexNumber
deriving DecidableEq, Repr

/-- The text of an error, without the position that Lua puts in front of it. -/
def NobError.message : NobError → Bytes
  | forkFailed => ascii "[NOB ERROR] Fork failed"
  | createProcessFailed => ascii "[NOB ERROR] Failed CreateProcessA"
  | cmdFailed code cmd =>
      ascii "[NOB ERROR] Cmd failed (" ++ ascii (ToString.toString code) ++ ascii "): " ++ cmd
  | indexNumber => ascii "attempt to index local 'exit_code' (a number value)"

/-- The operating system: `nob.is_windows`, whether the `n`-th `fork` or
`CreateProcessA` succeeds, and the status word (on Windows the exit code) of the process
that it started. -/
structure World where
  isWindows : Bool
  spawns : Nat → Bool
  status : Nat → Nat

/-- `Cmd:run_async`, as the `n`-th attempt to start a process. -/
def Cmd.runAsync (w : World) (n : Nat) (c : Cmd) : Except NobError Proc :=
  let cmdStr := c.toString
  if w.isWindows then
    if w.spawns n then .ok { pid := n, cmd := cmdStr } else .error .createProcessFailed
  else
    if w.spawns n then .ok { pid := n, cmd := cmdStr } else .error .forkFailed

/-- `nob.wait_proc` -/
def waitProc (w : World) (proc : Proc) : Except NobError Unit :=
  if w.isWindows then
    let exitCode := w.status proc.pid
    if exitCode ≠ 0 then .error (.cmdFailed exitCode proc.cmd) else .ok ()
  else
    let status := w.status proc.pid
    let exitCode := (status &&& 0xff00) >>> 8
    -- `exit_code[0]` is evaluated before the error is built
    if exitCode ≠ 0 then .error .indexNumber else .ok ()

/-- `Cmd:run` -/
def Cmd.run (w : World) (n : Nat) (c : Cmd) : Except NobError Unit :=
  (c.runAsync w n).bind (waitProc w)

/-! ## The ways a process can end -/

/-- How a POSIX process ends. -/
inductive Ending where
  | exited (code : Fin 256)
  | signaled (sig : Nat) (h : 0 < sig ∧ sig < 127) (core : Bool)
deriving DecidableEq, Repr

/-- The status word `waitpid` stores. -/
def Ending.status : Ending → Nat
  | exited code => code.val <<< 8
  | signaled sig _ core => if core then sig ||| 0x80 else sig

/-- A normal exit with code 0. -/
def Ending.success : Ending := .exited 0

/-- The exit code field of a status word. -/
theorem exitCode_status (e : Ending) :
    (e.status &&& 0xff00) >>> 8 = match e with
      | .exited code => code.val
      | .signaled _ _ _ => 0 := by
  rw [Nat.shiftRight_and_distrib]
  cases e with
  | exited code =>
      have hfield : (0xff00 : Nat) >>> 8 = 2 ^ 8 - 1 := by decide
      rw [Ending.status, Nat.shiftLeft_shiftRight, hfield, Nat.and_two_pow_sub_one_of_lt_two_pow code.isLt]
  | signaled sig h core =>
      have hlow : (Ending.signaled sig h core).status < 2 ^ 8 := by
        have hsig : sig < 2 ^ 8 := by omega
        have hdump : 0x80 < 2 ^ 8 := by decide
        cases core
        · exact hsig
        · exact Nat.or_lt_two_pow hsig hdump
      rw [Nat.shiftRight_eq_zero _ _ hlow, Nat.zero_and]

/-- A POSIX system on which process `n` ends in the way `ends n`. -/
def World.posix (spawns : Nat → Bool) (ends : Nat → Ending) : World :=
  { isWindows := false, spawns := spawns, status := fun n => (ends n).status }

/-- What `wait_proc` makes of an ending. -/
theorem waitProc_posix (spawns : Nat → Bool) (ends : Nat → Ending) (p : Proc) :
    waitProc (World.posix spawns ends) p = match ends p.pid with
      | .exited code => if code = 0 then .ok () else .error .indexNumber
      | .signaled _ _ _ => .ok () := by
  have hcode := exitCode_status (ends p.pid)
  have hwait : waitProc (World.posix spawns ends) p
      = if ((ends p.pid).status &&& 0xff00) >>> 8 ≠ 0 then .error .indexNumber else .ok () := rfl
  rw [hwait, hcode]
  cases ends p.pid with
  | exited code =>
      by_cases h : code = 0
      · simp [h]
      · have hval : code.val ≠ 0 := fun h0 => h (Fin.ext h0)
        simp [h, hval]
  | signaled _ _ _ => rfl

end Tmg.Nob
