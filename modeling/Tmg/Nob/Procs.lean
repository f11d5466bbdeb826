/-
# `Tmg.Nob.Procs` — the job queue, statement by statement

`Procs` runs commands with at most `max_jobs` processes at a time.  `Procs:wait_all` is
two nested loops that can be left by an error in two places, so it is modelled as a
machine: `Point` says where `wait_all` stands, `step` is the statement there.

    while #self.queue > 0 or #self.active > 0 do            outer
        while #self.active < self.max_jobs                  fill
              and #self.queue > 0 do
            local cmd = table.remove(self.queue, 1)
            local proc = cmd:run_async()                    spawn cmd
            table.insert(self.active, proc)
        end
        if #self.active > 0 then                            poll
            local proc = table.remove(self.active, 1)
            nob.wait_proc(proc)                             wait proc
        end
    end

A command in hand at `spawn` still counts as queued, a process in hand at `wait` as
active (`queueNow`, `activeNow`).  `State` carries, next to the fields of the source,
the history that the results are about: what was appended, started and waited for.
`Reachable` are the states of all runs: calls of `append` and `wait_all` in any order,
and the steps in between.
-/
import Tmg.Nob.Command
import Tmg.Lib.Machine
import Mathlib.Data.Rat.Defs
import Mathlib.Data.List.Nodup

namespace Tmg.Nob

open Lib

/-! ## The source's fields -/

/-- A Lua number, as far as a comparison with a length tells numbers apart. -/
inductive LuaNumber where
  | nan
  | negInf
  | posInf
  | finite (q : Rat)
deriving DecidableEq

/-- `n < x` -/
def LuaNumber.Above (n : Nat) : LuaNumber → Prop
  | nan => False
  | negInf => False
  | posInf => True
  | finite q => (n : Rat) < q

/-- `x <= n` -/
def LuaNumber.AtMost : LuaNumber → Nat → Prop
  | nan, _ => False
  | negInf, _ => True
  | posInf, _ => False
  | finite q, n => q ≤ n

instance (n : Nat) (x : LuaNumber) : Decidable (x.Above n) :=
  match x with
  | .nan => isFalse id
  | .negInf => isFalse id
  | .posInf => isTrue trivial
  | .finite q => inferInstanceAs (Decidable ((n : Rat) < q))

instance (x : LuaNumber) (n : Nat) : Decidable (x.AtMost n) :=
  match x with
  | .nan => isFalse id
  | .negInf => isTrue trivial
  | .posInf => isFalse id
  | .finite q => inferInstanceAs (Decidable (q ≤ n))

/-- The fields of `Procs`. -/
structure Procs where
  queue : List Cmd
  active : List Proc
  maxJobs : LuaNumber

/-- `nob.procs`, for `nil` with its default. -/
def procs (maxJobs : Option LuaNumber) : Procs :=
  { queue := [], active := [], maxJobs := maxJobs.getD (.finite 4) }

/-! ## The machine -/

/-- Where `wait_all` stands: at one of its statements, or outside. -/
inductive Point where
  | idle
  | returned
  | raised (e : NobError)
  | outer
  | fill
  | spawn (cmd : Cmd)
  | poll
  | wait (proc : Proc)
deriving DecidableEq

/-- `wait_all` is not running. -/
def Point.Outside : Point → Prop
  | idle | returned | raised _ => True
  | _ => False

/-- The fields of `Procs`, the point reached, the number of attempts to start a process,
and the history. -/
structure State extends Procs where
  point : Point
  attempts : Nat
  appended : List Cmd
  started : List (Cmd × Proc)
  waited : List Proc

/-- A fresh `Procs`. -/
def State.new (maxJobs : Option LuaNumber) : State :=
  { procs maxJobs with point := .idle, attempts := 0, appended := [], started := [], waited := [] }

/-- `Procs:append` -/
def State.append (s : State) (cmd : Cmd) : State :=
  { s with point := .idle, queue := s.queue ++ [cmd], appended := s.appended ++ [cmd] }

/-- A call of `Procs:wait_all`. -/
def State.waitAll (s : State) : State := { s with point := .outer }

/-- The statement at the point reached. -/
def step (w : World) (s : State) : State :=
  match s.point with
  | .idle | .returned | .raised _ => s
  | .outer =>
      if s.queue.length > 0 ∨ s.active.length > 0 then { s with point := .fill }
      else { s with point := .returned }
  | .fill =>
      match s.queue with
      | [] => { s with point := .poll }
      | cmd :: queue =>
          if s.maxJobs.Above s.active.length then { s with queue := queue, point := .spawn cmd }
          else { s with point := .poll }
  | .spawn cmd =>
      match cmd.runAsync w s.attempts with
      | .ok proc =>
          { s with
            attempts := s.attempts + 1, active := s.active ++ [proc],
            started := s.started ++ [(cmd, proc)], point := .fill }
      | .error e => { s with attempts := s.attempts + 1, point := .raised e }
  | .poll =>
      match s.active with
      | [] => { s with point := .outer }
      | proc :: active => { s with active := active, point := .wait proc }
  | .wait proc =>
      match waitProc w proc with
      | .ok _ => { s with waited := s.waited ++ [proc], point := .outer }
      | .error e => { s with waited := s.waited ++ [proc], point := .raised e }

/-- The commands that are not started yet, the one in hand included. -/
def State.queueNow (s : State) : List Cmd :=
  match s.point with
  | .spawn cmd => cmd :: s.queue
  | _ => s.queue

/-- The processes that are not waited for yet, the one in hand included. -/
def State.activeNow (s : State) : List Proc :=
  match s.point with
  | .wait proc => proc :: s.active
  | _ => s.active

/-- The states of all runs. -/
inductive Reachable (w : World) (maxJobs : Option LuaNumber) : State → Prop
  | new : Reachable w maxJobs (State.new maxJobs)
  | append {s : State} (cmd : Cmd) : Reachable w maxJobs s → s.point.Outside →
      Reachable w maxJobs (s.append cmd)
  | waitAll {s : State} : Reachable w maxJobs s → s.point.Outside → Reachable w maxJobs s.waitAll
  | turn {s : State} : Reachable w maxJobs s → Reachable w maxJobs (step w s)

/-! ## What a step does -/

/-- What the statement at the point reached does, to the fields and to the history. -/
inductive StepTo (w : World) (s : State) : State → Prop
  | outside : s.point.Outside → StepTo w s s
  | leave : s.point = .outer → s.queue = [] → s.active = [] →
      StepTo w s { s with point := .returned }
  | enter : s.point = .outer → (s.queue ≠ [] ∨ s.active ≠ []) → StepTo w s { s with point := .fill }
  | dequeue {cmd : Cmd} {queue : List Cmd} : s.point = .fill → s.queue = cmd :: queue →
      s.maxJobs.Above s.active.length → StepTo w s { s with queue := queue, point := .spawn cmd }
  | filled : s.point = .fill → (s.queue = [] ∨ ¬ s.maxJobs.Above s.active.length) →
      StepTo w s { s with point := .poll }
  | spawned {cmd : Cmd} : s.point = .spawn cmd → w.spawns s.attempts = true →
      StepTo w s { s with
        attempts := s.attempts + 1, active := s.active ++ [⟨s.attempts, cmd.toString⟩],
        started := s.started ++ [(cmd, ⟨s.attempts, cmd.toString⟩)], point := .fill }
  | spawnFailed {cmd : Cmd} {e : NobError} : s.point = .spawn cmd → w.spawns s.attempts = false →
      cmd.runAsync w s.attempts = .error e →
      StepTo w s { s with attempts := s.attempts + 1, point := .raised e }
  | remove {proc : Proc} {active : List Proc} : s.point = .poll → s.active = proc :: active →
      StepTo w s { s with active := active, point := .wait proc }
  | none : s.point = .poll → s.active = [] → StepTo w s { s with point := .outer }
  | ended {proc : Proc} : s.point = .wait proc → waitProc w proc = .ok () →
      StepTo w s { s with waited := s.waited ++ [proc], point := .outer }
  | failed {proc : Proc} {e : NobError} : s.point = .wait proc → waitProc w proc = .error e →
      StepTo w s { s with waited := s.waited ++ [proc], point := .raised e }

theorem runAsync_ok {w : World} {n : Nat} (cmd : Cmd) (h : w.spawns n = true) :
    cmd.runAsync w n = .ok ⟨n, cmd.toString⟩ := by
  unfold Cmd.runAsync
  simp [h]

theorem runAsync_error {w : World} {n : Nat} (cmd : Cmd) (h : w.spawns n = false) :
    ∃ e, cmd.runAsync w n = .error e := by
  unfold Cmd.runAsync
  cases w.isWindows <;> simp [h]

theorem step_cases (w : World) (s : State) : StepTo w s (step w s) := by
  unfold step
  split
  · next h => exact .outside (by rw [h]; trivial)
  · next h => exact .outside (by rw [h]; trivial)
  · next h => exact .outside (by rw [h]; trivial)
  · next h =>
      split
      · next hne => exact .enter h (by simpa [List.length_pos_iff] using hne)
      · next hnil =>
          simp only [gt_iff_lt, List.length_pos_iff, ne_eq, not_or, not_not] at hnil
          exact .leave h hnil.1 hnil.2
  · next h =>
      split
      · next hq => exact .filled h (Or.inl hq)
      · next hq =>
          split
          · next hlt => exact .dequeue h hq hlt
          · next hge => exact .filled h (Or.inr hge)
  · next cmd h =>
      cases hsp : w.spawns s.attempts with
      | true =>
          rw [runAsync_ok cmd hsp]
          exact .spawned h hsp
      | false =>
          obtain ⟨e, he⟩ := runAsync_error cmd hsp
          rw [he]
          exact .spawnFailed h hsp he
  · next h =>
      split
      · next ha => exact .none h ha
      · next ha => exact .remove h ha
  · next proc h =>
      split
      · next hw => exact .ended h hw
      · next hw => exact .failed h hw

end Tmg.Nob
