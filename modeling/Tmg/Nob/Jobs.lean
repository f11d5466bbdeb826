/-
# `Tmg.Nob.Jobs` — no command is started twice, and which ones can be lost

Three invariants hold in every state of every run, each proved statement by statement
from `step_cases`:

| | |
| :-- | :-- |
| `History` | the processes started are those waited for, then the active ones; every command appended was taken from the queue or is in it |
| `Launched` | process numbers are those of the attempts that succeeded |
| `Bounded` | one active process less is below `max_jobs` |

While every attempt to start a process succeeds, the commands appended are the started
ones and the queue, in order (`noneLost_iff`).  An attempt that fails breaks this for
good: `table.remove` has taken the command off the queue before `run_async` raises.
-/
import Tmg.Nob.Procs
import Mathlib.Algebra.Order.Ring.Rat

namespace Tmg.Nob

open Lib

variable {w : World} {maxJobs : Option LuaNumber} {s s' : State}

/-! ## The invariants -/

/-- What was appended and started, and where it is now. -/
structure History (w : World) (s : State) : Prop where
  processes : s.started.map Prod.snd = s.waited ++ s.activeNow
  taken : s.appended.length = s.attempts + s.queueNow.length
  inOrder : (∀ n < s.attempts, w.spawns n = true) →
    s.appended = s.started.map Prod.fst ++ s.queueNow

theorem History.step (h : History w s) (hs : StepTo w s s') : History w s' := by
  obtain ⟨hproc, htaken, horder⟩ := h
  cases hs with
  | outside _ => exact ⟨hproc, htaken, horder⟩
  | leave hp _ _ =>
      simp only [State.activeNow, State.queueNow, hp] at hproc htaken horder
      exact ⟨hproc, htaken, horder⟩
  | enter hp _ =>
      simp only [State.activeNow, State.queueNow, hp] at hproc htaken horder
      exact ⟨hproc, htaken, horder⟩
  | dequeue hp hq _ =>
      simp only [State.activeNow, State.queueNow, hp, hq] at hproc htaken horder
      exact ⟨hproc, htaken, horder⟩
  | filled hp _ =>
      simp only [State.activeNow, State.queueNow, hp] at hproc htaken horder
      exact ⟨hproc, htaken, horder⟩
  | spawned hp _ =>
      simp only [State.activeNow, State.queueNow, hp] at hproc htaken horder
      refine ⟨by simp [State.activeNow, hproc], ?_, fun hall => ?_⟩
      · simp only [State.queueNow, htaken, List.length_cons]
        omega
      · simpa [State.queueNow] using horder fun n hn => hall n (Nat.lt_succ_of_lt hn)
  | spawnFailed hp hfail _ =>
      simp only [State.activeNow, State.queueNow, hp] at hproc htaken horder
      refine ⟨hproc, ?_, fun hall => ?_⟩
      · simp only [State.queueNow, htaken, List.length_cons]
        omega
      · exact absurd (hfail.symm.trans (hall s.attempts (Nat.lt_succ_self _))) (by decide)
  | remove hp ha =>
      simp only [State.activeNow, State.queueNow, hp, ha] at hproc htaken horder
      exact ⟨hproc, htaken, horder⟩
  | none hp _ =>
      simp only [State.activeNow, State.queueNow, hp] at hproc htaken horder
      exact ⟨hproc, htaken, horder⟩
  | ended hp _ =>
      simp only [State.activeNow, State.queueNow, hp] at hproc htaken horder
      exact ⟨by simp [State.activeNow, hproc], htaken, horder⟩
  | failed hp _ =>
      simp only [State.activeNow, State.queueNow, hp] at hproc htaken horder
      exact ⟨by simp [State.activeNow, hproc], htaken, horder⟩

/-- The numbers of the processes started are those of the attempts that succeeded. -/
def Launched (w : World) (s : State) : Prop :=
  s.started.map (fun job => job.2.pid) = (List.range s.attempts).filter w.spawns

theorem Launched.step (h : Launched w s) (hs : StepTo w s s') : Launched w s' := by
  cases hs with
  | spawned _ hsp => simp [Launched, List.range_succ, hsp, ← show _ = _ from h]
  | spawnFailed _ hsp _ => simpa [Launched, List.range_succ, hsp] using h
  | _ => exact h

/-- With one active process less there is room for it. -/
structure Bounded (maxJobs : Option LuaNumber) (s : State) : Prop where
  maxJobs : s.maxJobs = maxJobs.getD (.finite 4)
  room : ∀ cmd, s.point = .spawn cmd → s.maxJobs.Above s.active.length
  active : s.activeNow = [] ∨ s.maxJobs.Above (s.activeNow.length - 1)

theorem LuaNumber.Above.mono {x : LuaNumber} {m n : Nat} (h : x.Above n) (hmn : m ≤ n) :
    x.Above m := by
  cases x with
  | nan => exact h
  | negInf => exact h
  | posInf => trivial
  | finite q =>
      have hle : (m : Rat) ≤ n := by exact_mod_cast hmn
      have hlt : (n : Rat) < q := h
      exact lt_of_le_of_lt hle hlt

theorem Bounded.step (h : Bounded maxJobs s) (hs : StepTo w s s') : Bounded maxJobs s' := by
  obtain ⟨hmax, hroom, hact⟩ := h
  have hsub : ∀ {proc active}, s.point = .wait proc → active = s.active →
      active = [] ∨ s.maxJobs.Above (active.length - 1) := by
    rintro proc active hp rfl
    simp only [State.activeNow, hp] at hact
    rcases hact with hact | hact
    · exact absurd hact (by simp)
    · exact Or.inr (hact.mono (by simp))
  cases hs with
  | outside _ => exact ⟨hmax, hroom, hact⟩
  | leave hp _ _ | enter hp _ | filled hp _ | none hp _ =>
      simp only [State.activeNow, hp] at hact
      exact ⟨hmax, fun _ h => absurd h (by simp), hact⟩
  | dequeue hp _ hlt =>
      simp only [State.activeNow, hp] at hact
      exact ⟨hmax, fun _ _ => hlt, hact⟩
  | spawned hp _ =>
      exact ⟨hmax, fun _ h => absurd h (by simp), Or.inr (by simpa [State.activeNow] using hroom _ hp)⟩
  | spawnFailed hp _ _ =>
      simp only [State.activeNow, hp] at hact
      exact ⟨hmax, fun _ h => absurd h (by simp), hact⟩
  | remove hp ha =>
      simp only [State.activeNow, hp, ha] at hact
      exact ⟨hmax, fun _ h => absurd h (by simp), hact⟩
  | ended hp _ => exact ⟨hmax, fun _ h => absurd h (by simp), hsub hp rfl⟩
  | failed hp _ => exact ⟨hmax, fun _ h => absurd h (by simp), hsub hp rfl⟩

/-! ## Along a run -/

theorem Point.Outside.queueNow {s : State} (h : s.point.Outside) : s.queueNow = s.queue := by
  unfold State.queueNow
  split
  · next hp =>
      rw [hp] at h
      exact h.elim
  · rfl

theorem Point.Outside.activeNow {s : State} (h : s.point.Outside) : s.activeNow = s.active := by
  unfold State.activeNow
  split
  · next hp =>
      rw [hp] at h
      exact h.elim
  · rfl

/-- The history, at every point of every run. -/
theorem Reachable.history (h : Reachable w maxJobs s) : History w s := by
  induction h with
  | new => exact ⟨rfl, rfl, fun _ => rfl⟩
  | @append s cmd _ hout ih =>
      obtain ⟨hproc, htaken, horder⟩ := ih
      rw [hout.activeNow] at hproc
      rw [hout.queueNow] at htaken horder
      refine ⟨hproc, ?_, fun hall => ?_⟩
      · simp only [State.append, State.queueNow, List.length_append, htaken]
        omega
      · simp only [State.append, State.queueNow, horder hall, List.append_assoc]
  | waitAll _ hout ih =>
      obtain ⟨hproc, htaken, horder⟩ := ih
      rw [hout.activeNow] at hproc
      rw [hout.queueNow] at htaken horder
      exact ⟨hproc, htaken, horder⟩
  | turn _ ih => exact ih.step (step_cases w _)

theorem Reachable.launched (h : Reachable w maxJobs s) : Launched w s := by
  induction h with
  | new => exact rfl
  | append _ _ _ ih => exact ih
  | waitAll _ _ ih => exact ih
  | turn _ ih => exact ih.step (step_cases w _)

theorem Reachable.bounded (h : Reachable w maxJobs s) : Bounded maxJobs s := by
  induction h with
  | new => exact ⟨rfl, fun _ h => absurd h (by simp [State.new]), Or.inl rfl⟩
  | append _ _ hout ih =>
      have hact := ih.active
      rw [hout.activeNow] at hact
      exact ⟨ih.maxJobs, fun _ h => absurd h (by simp [State.append]), hact⟩
  | waitAll _ hout ih =>
      have hact := ih.active
      rw [hout.activeNow] at hact
      exact ⟨ih.maxJobs, fun _ h => absurd h (by simp [State.waitAll]), hact⟩
  | turn _ ih => exact ih.step (step_cases w _)

theorem Reachable.iterate (h : Reachable w maxJobs s) (n : Nat) :
    Reachable w maxJobs ((step w)^[n] s) :=
  Function.Iterate.rec (Reachable w maxJobs) h (fun _ ht => ht.turn) n

/-! ## What can be lost -/

/-- Every command appended is started or in the queue, in order. -/
def NoneLost (s : State) : Prop := s.appended = s.started.map Prod.fst ++ s.queueNow

/-- **No command is lost exactly while every attempt to start a process has succeeded.** -/
theorem noneLost_iff (h : Reachable w maxJobs s) :
    NoneLost s ↔ ∀ n < s.attempts, w.spawns n = true := by
  refine ⟨fun hnone => ?_, h.history.inOrder⟩
  -- as many were started as were taken off the queue
  have hlen : s.started.length = s.attempts := by
    have htaken := h.history.taken
    rw [hnone, List.length_append, List.length_map] at htaken
    omega
  have hcount : ((List.range s.attempts).filter w.spawns).length = (List.range s.attempts).length := by
    rw [← h.launched, List.length_map, hlen, List.length_range]
  intro n hn
  exact List.length_filter_eq_length_iff.mp hcount n (List.mem_range.mpr hn)

/-- A system on which every process starts and exits with code 0. -/
def allWell : World := { isWindows := false, spawns := fun _ => true, status := fun _ => 0 }

/-- A `Procs` to which the commands `cc` and `ld` have been appended. -/
def ccThenLd (maxJobs : LuaNumber) : State :=
  ((State.new (some maxJobs)).append ⟨[ascii "cc"]⟩).append ⟨[ascii "ld"]⟩

theorem reachable_ccThenLd (w : World) (maxJobs : LuaNumber) (n : Nat) :
    Reachable w (some maxJobs) ((step w)^[n] (ccThenLd maxJobs).waitAll) :=
  (Reachable.waitAll (.append _ (.append _ .new trivial) trivial) trivial).iterate n

/-- Two commands on a system where every process starts. -/
theorem noneLost_two : NoneLost ((step allWell)^[7] (ccThenLd (.finite 1)).waitAll) :=
  (noneLost_iff (reachable_ccThenLd allWell (.finite 1) 7)).mpr fun _ _ => rfl

/-- A failed `fork` loses the command it was to run: it is neither started nor queued. -/
theorem lost_at_fork :
    let w : World := { isWindows := false, spawns := fun _ => false, status := fun _ => 0 }
    let s := (step w)^[3] ((State.new none).append ⟨[ascii "cc"]⟩).waitAll
    Reachable w none s ∧ s.point = .raised .forkFailed ∧ s.appended = [⟨[ascii "cc"]⟩] ∧
      s.started = [] ∧ s.queueNow = [] ∧ ¬ NoneLost s := by
  intro w s
  have hreach : Reachable w none s :=
    .turn (.turn (.turn (.waitAll (.append _ .new trivial) trivial)))
  have happended : s.appended = [⟨[ascii "cc"]⟩] := by decide
  have hqueue : s.queueNow = [] := by decide
  refine ⟨hreach, by decide, happended, rfl, hqueue, fun h => ?_⟩
  rw [NoneLost, happended, hqueue] at h
  exact absurd h (by decide)

/-! ## Every command once, in order -/

theorem LuaNumber.Above.lt_of_atMost {x : LuaNumber} {m n : Nat} (h : x.Above m)
    (hn : x.AtMost n) : m < n := by
  cases x with
  | nan => exact h.elim
  | negInf => exact h.elim
  | posInf => exact hn.elim
  | finite q =>
      have hlt : (m : Rat) < n := lt_of_lt_of_le (show (m : Rat) < q from h) hn
      exact_mod_cast hlt

/-- What a step leaves alone, and what it only adds to. -/
theorem StepTo.grows (hs : StepTo w s s') :
    s'.appended = s.appended ∧ s.started <+: s'.started ∧ s.waited <+: s'.waited := by
  cases hs with
  | spawned _ _ => exact ⟨rfl, List.prefix_append _ _, List.prefix_rfl⟩
  | ended _ _ => exact ⟨rfl, List.prefix_rfl, List.prefix_append _ _⟩
  | failed _ _ => exact ⟨rfl, List.prefix_rfl, List.prefix_append _ _⟩
  | _ => exact ⟨rfl, List.prefix_rfl, List.prefix_rfl⟩

theorem iterate_grows (w : World) (s : State) (n : Nat) :
    ((step w)^[n] s).appended = s.appended ∧ s.started <+: ((step w)^[n] s).started ∧
      s.waited <+: ((step w)^[n] s).waited := by
  refine Function.Iterate.rec (fun t : State => t.appended = s.appended ∧ s.started <+: t.started ∧
    s.waited <+: t.waited) ⟨rfl, List.prefix_rfl, List.prefix_rfl⟩ (fun t h => ?_) n
  obtain ⟨happended, hstarted, hwaited⟩ := (step_cases w t).grows
  exact ⟨happended.trans h.1, h.2.1.trans hstarted, h.2.2.trans hwaited⟩

/-- `wait_all` returns with nothing left. -/
theorem Reachable.returned (h : Reachable w maxJobs s) :
    s.point = .returned → s.queue = [] ∧ s.active = [] := by
  induction h with
  | new => exact fun h => absurd h (by simp [State.new])
  | append _ _ _ _ => exact fun h => absurd h (by simp [State.append])
  | waitAll _ _ _ => exact fun h => absurd h (by simp [State.waitAll])
  | @turn s _ ih =>
      intro hp
      have hcase := step_cases w s
      generalize step w s = s' at hcase hp
      cases hcase with
      | outside _ => exact ih hp
      | leave _ hq ha => exact ⟨hq, ha⟩
      | _ => exact absurd hp (by simp)

/-- The commands appended are, in order, those whose process has been waited for, those
whose process is active, and those in the queue. -/
def InOrder (s : State) : Prop :=
  ∃ done running : List (Cmd × Proc),
    s.started = done ++ running ∧ s.waited = done.map Prod.snd ∧
      s.activeNow = running.map Prod.snd ∧
      s.appended = done.map Prod.fst ++ (running.map Prod.fst ++ s.queueNow)

theorem History.split (h : History w s) (hspawn : ∀ n, w.spawns n = true) : InOrder s := by
  obtain ⟨done, running, hstarted, hdone, hrunning⟩ := List.map_eq_append_iff.mp h.processes
  refine ⟨done, running, hstarted, hdone.symm, hrunning.symm, ?_⟩
  rw [h.inOrder fun n _ => hspawn n, hstarted, List.map_append, List.append_assoc]

/-- **While every process starts, `append` and `wait_all` run the commands in order, each
once, and no more than `max_jobs`, rounded up, at a time**; a call of `wait_all` that returns
has run what was left. -/
theorem waitAll_inOrder (hspawn : ∀ n, w.spawns n = true) (h : Reachable w maxJobs s) :
    InOrder s ∧ (s.started.map fun job => job.2.pid).Nodup ∧
      (∀ n, (maxJobs.getD (.finite 4)).AtMost n → s.activeNow.length ≤ n) ∧
      (s.point = .returned →
        s.appended = s.started.map Prod.fst ∧ s.waited = s.started.map Prod.snd) ∧
      (s.point.Outside → ∀ k, ((step w)^[k] s.waitAll).point = .returned →
        ∃ new : List (Cmd × Proc), ((step w)^[k] s.waitAll).started = s.started ++ new ∧
          new.map Prod.fst = s.queue ∧
          ((step w)^[k] s.waitAll).waited = s.waited ++ (s.active ++ new.map Prod.snd)) := by
  have hdone : ∀ {t : State}, Reachable w maxJobs t → t.point = .returned →
      t.appended = t.started.map Prod.fst ∧ t.waited = t.started.map Prod.snd := by
    intro t ht hp
    obtain ⟨hq, ha⟩ := ht.returned hp
    have hout : t.point.Outside := hp ▸ trivial
    have horder := ht.history.inOrder fun n _ => hspawn n
    have hproc := ht.history.processes
    rw [hout.queueNow, hq, List.append_nil] at horder
    rw [hout.activeNow, ha, List.append_nil] at hproc
    exact ⟨horder, hproc.symm⟩
  refine ⟨h.history.split hspawn, ?_, fun n hn => ?_, hdone h, fun hout k hp => ?_⟩
  · rw [h.launched]
    exact List.nodup_range.filter _
  · have hbound := h.bounded
    rcases hbound.active with hnil | habove
    · simp [hnil]
    · rw [hbound.maxJobs] at habove
      have := habove.lt_of_atMost hn
      omega
  · obtain ⟨happended, ⟨new, hnew⟩, -⟩ := iterate_grows w s.waitAll k
    have hreach := (h.waitAll hout).iterate k
    obtain ⟨hall, hwaited⟩ := hdone hreach hp
    have horder := h.history.inOrder fun n _ => hspawn n
    have hproc := h.history.processes
    rw [hout.queueNow] at horder
    rw [hout.activeNow] at hproc
    have hstarted : s.waitAll.started = s.started := rfl
    have happ : s.waitAll.appended = s.appended := rfl
    rw [← hnew, hstarted, List.map_append] at hall hwaited
    rw [happended, happ, horder, List.append_cancel_left_eq] at hall
    refine ⟨new, by rw [← hnew, hstarted], hall.symm, ?_⟩
    rw [hwaited, hproc, List.append_assoc]

/-- Two commands with one job at a time: the first is waited for, the second is next. -/
theorem waitAll_inOrder_two : InOrder ((step allWell)^[7] (ccThenLd (.finite 1)).waitAll) :=
  (waitAll_inOrder (fun _ => rfl) (reachable_ccThenLd allWell (.finite 1) 7)).1

/-- With `max_jobs` at one and a half two processes are active. -/
theorem active_above_maxJobs :
    let s := (step allWell)^[5] (ccThenLd (.finite (mkRat 3 2))).waitAll
    Reachable allWell (some (.finite (mkRat 3 2))) s ∧ 1 ≤ mkRat 3 2 ∧
      ¬ (s.activeNow.length : Rat) ≤ mkRat 3 2 := by
  intro s
  have hlen : s.activeNow.length = 2 := by decide
  refine ⟨reachable_ccThenLd allWell _ 5, by decide, ?_⟩
  rw [hlen]
  decide

end Tmg.Nob
