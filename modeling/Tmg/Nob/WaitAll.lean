/-
# `Tmg.Nob.WaitAll` — when `wait_all` ends, and what it reports

`wait_all` ends when its inner loop can start a process, that is when `0 < max_jobs`,
or when there is nothing to start; else the outer loop turns for ever
(`waitAll_halts_iff`).

What it reports, on POSIX, is wrong for every command that does not exit with code 0
(`reports_iff`): a command killed by a signal counts as a success, and for an exit code
what is raised is not the NOB error.  Both are read off `waitProc_posix`.
-/
import Tmg.Nob.Jobs

namespace Tmg.Nob

open Lib

variable {w : World} {maxJobs : Option LuaNumber} {s : State}

/-! ## Termination -/

/-- How far `wait_all` is from its end: what is queued has still to be started and waited
for, what is active to be waited for. -/
def remaining (s : State) : Nat :=
  6 * s.queue.length + 4 * s.active.length +
    match s.point with
    | .idle | .returned | .raised _ => 0
    | .poll => 1
    | .fill => 2
    | .outer => 3
    | .wait _ => 4
    | .spawn _ => 7

/-- There is room for a process, and in the loop there is something to do. -/
structure Busy (s : State) : Prop where
  room : s.maxJobs.Above 0
  fill : s.point = .fill → s.queue ≠ [] ∨ s.active ≠ []
  poll : s.point = .poll → s.active ≠ []

/-- Every statement brings `wait_all` nearer to its end. -/
theorem Busy.turn (h : Busy s) (hin : ¬ s.point.Outside) :
    Busy (step w s) ∧ remaining (step w s) < remaining s := by
  obtain ⟨hroom, hfill, hpoll⟩ := h
  have hcase := step_cases w s
  generalize step w s = s' at hcase
  cases hcase with
  | outside hout => exact absurd hout hin
  | leave hp _ _ =>
      exact ⟨⟨hroom, by simp, by simp⟩, by simp [remaining, hp]⟩
  | enter hp hne =>
      exact ⟨⟨hroom, fun _ => hne, by simp⟩, by simp [remaining, hp]⟩
  | dequeue hp hq _ =>
      refine ⟨⟨hroom, by simp, by simp⟩, ?_⟩
      simp only [remaining, hp, hq, List.length_cons]
      omega
  | filled hp hor =>
      refine ⟨⟨hroom, by simp, fun _ hnil => ?_⟩, by simp [remaining, hp]⟩
      -- nothing active: then the queue is not empty, and there is room
      rcases hor with hq | hfull
      · exact (hfill hp).elim (fun h => h hq) (fun h => h hnil)
      · rw [hnil] at hfull
        exact hfull hroom
  | spawned hp _ =>
      refine ⟨⟨hroom, fun _ => Or.inr (by simp), by simp⟩, ?_⟩
      simp only [remaining, hp, List.length_append, List.length_singleton]
      omega
  | spawnFailed hp _ _ => exact ⟨⟨hroom, by simp, by simp⟩, by simp [remaining, hp]⟩
  | remove hp ha =>
      refine ⟨⟨hroom, by simp, by simp⟩, ?_⟩
      simp only [remaining, hp, ha, List.length_cons]
      omega
  | none hp ha => exact absurd ha (hpoll hp)
  | ended hp _ => exact ⟨⟨hroom, by simp, by simp⟩, by simp [remaining, hp]⟩
  | failed hp _ => exact ⟨⟨hroom, by simp, by simp⟩, by simp [remaining, hp]⟩

/-- The outer loop turns without starting anything. -/
structure Stuck (s : State) : Prop where
  noRoom : ¬ s.maxJobs.Above 0
  queue : s.queue ≠ []
  active : s.active = []
  point : s.point = .outer ∨ s.point = .fill ∨ s.point = .poll

theorem Stuck.turn (h : Stuck s) : Stuck (step w s) := by
  obtain ⟨hroom, hq, ha, hp⟩ := h
  have hcase := step_cases w s
  generalize step w s = s' at hcase
  cases hcase with
  | outside hout => exact ⟨hroom, hq, ha, hp⟩
  | leave _ hnil _ => exact absurd hnil hq
  | enter _ _ => exact ⟨hroom, hq, ha, Or.inr (Or.inl rfl)⟩
  | dequeue _ _ habove => exact absurd (habove.mono (Nat.zero_le _)) hroom
  | filled _ _ => exact ⟨hroom, hq, ha, Or.inr (Or.inr rfl)⟩
  | remove _ hcons => exact absurd (ha.symm.trans hcons) (by simp)
  | none _ _ => exact ⟨hroom, hq, ha, Or.inl rfl⟩
  | spawned hp' _ => simp [hp'] at hp
  | spawnFailed hp' _ _ => simp [hp'] at hp
  | ended hp' _ => simp [hp'] at hp
  | failed hp' _ => simp [hp'] at hp

theorem Stuck.not_halts (h : Stuck s) : ¬ Halts (step w) (fun t => t.point.Outside) s := by
  refine not_halts_of_invariant (fun t ht => ht.turn) (fun t ht hfinal => ?_) h
  rcases ht.point with hp | hp | hp <;> rw [hp] at hfinal <;> exact hfinal

/-- Without room nothing is ever active. -/
theorem Reachable.active_eq_nil (h : Reachable w maxJobs s) (hroom : ¬ s.maxJobs.Above 0) :
    s.activeNow = [] := by
  rcases h.bounded.active with hnil | habove
  · exact hnil
  · exact absurd (habove.mono (Nat.zero_le _)) hroom

/-- **`wait_all` ends exactly when the queue is empty or `0 < max_jobs`.** -/
theorem waitAll_halts_iff (h : Reachable w maxJobs s) (hout : s.point.Outside) :
    Halts (step w) (fun t => t.point.Outside) s.waitAll ↔
      s.queue = [] ∨ (maxJobs.getD (.finite 4)).Above 0 := by
  have hmax := h.bounded.maxJobs
  rw [← hmax]
  by_cases hroom : s.maxJobs.Above 0
  · refine iff_of_true ?_ (Or.inr hroom)
    have hbusy : Busy s.waitAll := ⟨hroom, by simp [State.waitAll], by simp [State.waitAll]⟩
    exact Halts.of_measure remaining (fun t ht hin => ht.turn hin) hbusy
  · have ha := h.active_eq_nil hroom
    rw [hout.activeNow] at ha
    constructor
    · intro hhalts
      by_contra hne
      have hq : s.queue ≠ [] := fun hq => hne (Or.inl hq)
      have hstuck : Stuck s.waitAll := ⟨hroom, hq, ha, Or.inl rfl⟩
      exact hstuck.not_halts hhalts
    · rintro (hq | hroom')
      · refine ⟨1, ?_⟩
        have hleave : step w s.waitAll = { s with point := .returned } := by
          simp [step, State.waitAll, hq, ha]
        rw [Function.iterate_one, hleave]
        trivial
      · exact absurd hroom' hroom

/-- With one job at a time `wait_all` ends. -/
theorem waitAll_halts_one :
    Halts (step allWell) (fun t => t.point.Outside) (ccThenLd (.finite 1)).waitAll :=
  (waitAll_halts_iff (.append _ (.append _ .new trivial) trivial) trivial).mpr (Or.inr (by decide))

/-- With `max_jobs` at zero it does not. -/
theorem waitAll_turns :
    ¬ Halts (step allWell) (fun t => t.point.Outside) (ccThenLd (.finite 0)).waitAll :=
  have hstuck : Stuck (ccThenLd (.finite 0)).waitAll :=
    ⟨by decide, by simp [ccThenLd, State.append, State.waitAll], rfl, Or.inl rfl⟩
  hstuck.not_halts

/-! ## What is reported on POSIX -/

/-- A POSIX system on which every process starts. -/
abbrev World.starting (ends : Nat → Ending) : World := World.posix (fun _ => true) ends

/-- `Cmd:run` returns only if the process exited with code 0, and else raises the NOB error
with the exit code and the command. -/
def RunReports (ends : Nat → Ending) (n : Nat) (c : Cmd) : Prop :=
  (c.run (World.starting ends) n = .ok () → ends n = .success) ∧
    (ends n ≠ .success → ∃ code, (∀ c', ends n = .exited c' → code = c'.val) ∧
      c.run (World.starting ends) n = .error (.cmdFailed code c.toString))

/-- The processes that a `wait_all` called in `s` has run when it is in `t`: those active
when it was called, and those started since. -/
def ran (s t : State) : List Proc := (t.started.drop s.waited.length).map Prod.snd

/-- `wait_all` returns only if every process it ran exited with code 0, and else raises the
NOB error with the exit code and the command of one that did not. -/
def WaitAllReports (ends : Nat → Ending) (s : State) : Prop :=
  ∀ k, let t := (step (World.starting ends))^[k] s.waitAll
    (t.point = .returned → ∀ p ∈ ran s t, ends p.pid = .success) ∧
      (t.point.Outside → (∃ p ∈ ran s t, ends p.pid ≠ .success) →
        ∃ p ∈ ran s t, ∃ code, ends p.pid ≠ .success ∧
          (∀ c, ends p.pid = .exited c → code = c.val) ∧ t.point = .raised (.cmdFailed code p.cmd))

theorem waitProc_error {ends : Nat → Ending} {spawns : Nat → Bool} {p : Proc} {e : NobError}
    (h : waitProc (World.posix spawns ends) p = .error e) :
    e = .indexNumber ∧ ends p.pid ≠ .success := by
  rw [waitProc_posix] at h
  cases hend : ends p.pid with
  | signaled _ _ _ => simp [hend] at h
  | exited code =>
      by_cases hc : code = 0
      · simp [hend, hc] at h
      · simp only [hend, hc, if_false, Except.error.injEq] at h
        refine ⟨h.symm, fun hsucc => hc ?_⟩
        exact Ending.exited.inj hsucc

/-- A single command is reported right exactly when it exits with code 0. -/
theorem runReports_iff (ends : Nat → Ending) (n : Nat) (c : Cmd) :
    RunReports ends n c ↔ ends n = .success := by
  have hrun : c.run (World.starting ends) n = waitProc (World.starting ends) ⟨n, c.toString⟩ := by
    have hstart : c.runAsync (World.starting ends) n = .ok ⟨n, c.toString⟩ := runAsync_ok c rfl
    rw [Cmd.run, hstart]
    rfl
  constructor
  · rintro ⟨-, hraise⟩
    by_contra hne
    obtain ⟨code, -, herr⟩ := hraise hne
    rw [hrun] at herr
    exact absurd (waitProc_error herr).1 (by simp)
  · intro h
    exact ⟨fun _ => h, fun hne => absurd h hne⟩

/-! ### A call of `wait_all` -/

section

variable {ends : Nat → Ending} {k : Nat} {t : State} {new : List (Cmd × Proc)}

/-- What a call has run: what was active, and what it has started. -/
theorem ran_eq (h : Reachable w maxJobs s) (hout : s.point.Outside)
    (hnew : t.started = s.started ++ new) : ran s t = s.active ++ new.map Prod.snd := by
  have hproc := h.history.processes
  rw [hout.activeNow] at hproc
  rw [ran, hnew, List.map_drop, List.map_append, hproc, List.append_assoc, List.drop_left]

/-- The processes it has started are numbered on from those there were. -/
theorem new_pids (hs : Reachable (World.starting ends) maxJobs s)
    (ht : Reachable (World.starting ends) maxJobs t) (hnew : t.started = s.started ++ new) :
    new.map (fun job => job.2.pid) = (List.range new.length).map (s.attempts + ·) := by
  have hall : ∀ n, (List.range n).filter (World.starting ends).spawns = List.range n := by
    intro n
    exact List.filter_eq_self.mpr fun _ _ => rfl
  have hls : s.started.map (fun job => job.2.pid) = List.range s.attempts := by
    rw [hs.launched, hall]
  have hlt : t.started.map (fun job => job.2.pid) = List.range t.attempts := by
    rw [ht.launched, hall]
  have hlen : t.attempts = s.attempts + new.length := by
    have h1 := congrArg List.length hls
    have h2 := congrArg List.length hlt
    rw [hnew] at h2
    simp only [List.length_map, List.length_range, List.length_append] at h1 h2
    omega
  rw [hnew, List.map_append, hls, hlen, List.range_add, List.append_cancel_left_eq] at hlt
  exact hlt

/-- It takes them from the head of the queue. -/
theorem new_queue (hspawn : ∀ n, w.spawns n = true) (hs : Reachable w maxJobs s)
    (hout : s.point.Outside) (ht : Reachable w maxJobs t) (happ : t.appended = s.appended)
    (hnew : t.started = s.started ++ new) : new.map Prod.fst ++ t.queueNow = s.queue := by
  have horder := hs.history.inOrder fun n _ => hspawn n
  have horder' := ht.history.inOrder fun n _ => hspawn n
  rw [hout.queueNow] at horder
  rw [happ, horder, hnew, List.map_append, List.append_assoc, List.append_cancel_left_eq] at horder'
  exact horder'.symm

/-- Without room nothing is ever started. -/
theorem Reachable.started_eq_nil (h : Reachable w maxJobs s) :
    ¬ (maxJobs.getD (.finite 4)).Above 0 → s.started = [] := by
  intro hroom
  induction h with
  | new => rfl
  | append _ _ _ ih => exact ih
  | waitAll _ _ ih => exact ih
  | @turn s h ih =>
      have hnext := h.turn
      have hnil := hnext.active_eq_nil (by rwa [hnext.bounded.maxJobs])
      have hcase := step_cases w s
      generalize step w s = s' at hcase hnil
      cases hcase with
      | spawned _ _ => exact absurd hnil (by simp [State.activeNow])
      | _ => exact ih

/-- An error of `wait_all` is Lua's, and one of the processes it waited for did not exit
with code 0. -/
theorem raised_error (k : Nat) (s : State) :
    let t := (step (World.starting ends))^[k] s.waitAll
    t.point ≠ .idle ∧ ∀ e, t.point = .raised e →
      e = .indexNumber ∧ ∃ p ∈ t.waited.drop s.waited.length, ends p.pid ≠ .success := by
  let I := fun t : State => s.waited <+: t.waited ∧ t.point ≠ .idle ∧ ∀ e, t.point = .raised e →
    e = .indexNumber ∧ ∃ p ∈ t.waited.drop s.waited.length, ends p.pid ≠ .success
  have hstart : I s.waitAll := ⟨List.prefix_rfl, by simp [State.waitAll], by simp [State.waitAll]⟩
  refine (Function.Iterate.rec I hstart (fun t h => ?_) k).2
  obtain ⟨hpre, hidle, hraised⟩ := h
  have hcase := step_cases (World.starting ends) t
  generalize step (World.starting ends) t = t' at hcase
  cases hcase with
  | outside _ => exact ⟨hpre, hidle, hraised⟩
  | spawnFailed _ hsp _ => exact absurd hsp (by simp [World.posix])
  | ended _ _ => exact ⟨hpre.trans (List.prefix_append _ _), by simp, by simp⟩
  | @failed proc e _ hw =>
      obtain ⟨rfl, hne⟩ := waitProc_error hw
      refine ⟨hpre.trans (List.prefix_append _ _), by simp, fun e he => ?_⟩
      obtain rfl : .indexNumber = e := Point.raised.inj he
      refine ⟨rfl, proc, ?_, hne⟩
      rw [List.drop_append_of_le_length hpre.length_le]
      exact List.mem_append_right _ List.mem_cons_self
  | _ => exact ⟨hpre, by simp, by simp⟩

/-- Every process that `wait_all` will run exits with code 0. -/
def AllSucceed (ends : Nat → Ending) (s : State) : Prop :=
  (∀ p ∈ s.active, ends p.pid = .success) ∧
    (s.maxJobs.Above 0 → ∀ i < s.queue.length, ends (s.attempts + i) = .success)

theorem mem_ran_of_waited (ht : Reachable w maxJobs t) (hle : s.waited <+: t.waited) {p : Proc}
    (hp : p ∈ t.waited.drop s.waited.length) : p ∈ ran s t := by
  rw [ran, List.map_drop, ht.history.processes, List.drop_append_of_le_length hle.length_le]
  exact List.mem_append_left _ hp

/-- The processes of a call are among those `AllSucceed` speaks of. -/
theorem AllSucceed.ran (hall : AllSucceed ends s) (hs : Reachable (World.starting ends) maxJobs s)
    (hout : s.point.Outside) (ht : Reachable (World.starting ends) maxJobs t)
    (happ : t.appended = s.appended) (hnew : t.started = s.started ++ new) :
    ∀ p ∈ ran s t, ends p.pid = .success := by
  obtain ⟨hactive, hqueue⟩ := hall
  intro p hp
  rw [ran_eq hs hout hnew, List.mem_append] at hp
  rcases hp with hp | hp
  · exact hactive p hp
  · obtain ⟨job, hjob, rfl⟩ := List.mem_map.mp hp
    -- something was started, so there was room
    have hroom : s.maxJobs.Above 0 := by
      rw [hs.bounded.maxJobs]
      by_contra hno
      have hnil := ht.started_eq_nil hno
      rw [hnew, List.append_eq_nil_iff] at hnil
      exact absurd hjob (by simp [hnil.2])
    have hpid : job.2.pid ∈ (List.range new.length).map (s.attempts + ·) := by
      rw [← new_pids hs ht hnew]
      exact List.mem_map_of_mem hjob
    obtain ⟨i, hi, hival⟩ := List.mem_map.mp hpid
    have hlen : new.length ≤ s.queue.length := by
      rw [← new_queue (fun _ => rfl) hs hout ht happ hnew]
      simp
    rw [← hival]
    exact hqueue hroom i (lt_of_lt_of_le (List.mem_range.mp hi) hlen)

/-- A call that returns has run all that `AllSucceed` speaks of. -/
theorem allSucceed_of_ran (hs : Reachable (World.starting ends) maxJobs s)
    (hout : s.point.Outside) (ht : Reachable (World.starting ends) maxJobs t)
    (happ : t.appended = s.appended) (hnew : t.started = s.started ++ new)
    (hret : t.point = .returned) (hran : ∀ p ∈ ran s t, ends p.pid = .success) :
    AllSucceed ends s := by
  rw [ran_eq hs hout hnew] at hran
  refine ⟨fun p hp => hran p (List.mem_append_left _ hp), fun _ i hi => ?_⟩
  have hqueue : new.map Prod.fst = s.queue := by
    have hq := new_queue (fun _ => rfl) hs hout ht happ hnew
    have hout' : t.point.Outside := hret ▸ trivial
    rwa [hout'.queueNow, (ht.returned hret).1, List.append_nil] at hq
  have hpid : s.attempts + i ∈ new.map (fun job => job.2.pid) := by
    rw [new_pids hs ht hnew]
    refine List.mem_map_of_mem (List.mem_range.mpr ?_)
    rwa [← hqueue, List.length_map] at hi
  obtain ⟨job, hjob, hval⟩ := List.mem_map.mp hpid
  rw [← hval]
  exact hran job.2 (List.mem_append_right _ (List.mem_map_of_mem hjob))

/-- A state of the call, and what it has run so far. -/
theorem Reachable.call (h : Reachable w maxJobs s) (hout : s.point.Outside) (k : Nat) :
    ∃ new : List (Cmd × Proc),
      let t := (step w)^[k] s.waitAll
      Reachable w maxJobs t ∧ t.appended = s.appended ∧ s.waited <+: t.waited ∧
        t.started = s.started ++ new := by
  obtain ⟨happ, ⟨new, hnew⟩, hwaited⟩ := iterate_grows w s.waitAll k
  exact ⟨new, (h.waitAll hout).iterate k, happ, hwaited, hnew.symm⟩

/-- What is raised is never the NOB error, so a call that ends and reports right has only
run processes that exited with code 0. -/
theorem allSucceed_of_reports (h : Reachable (World.starting ends) maxJobs s)
    (hout : s.point.Outside) (hrep : WaitAllReports ends s)
    (hend : ((step (World.starting ends))^[k] s.waitAll).point.Outside) : AllSucceed ends s := by
  obtain ⟨new, ht, happ, hwaited, hnew⟩ := h.call hout k
  obtain ⟨hreturn, hraise⟩ := hrep k
  obtain ⟨hidle, hraised⟩ := @raised_error ends k s
  generalize (step (World.starting ends))^[k] s.waitAll = t at *
  have hran : ∀ p ∈ ran s t, ends p.pid = .success := by
    intro p hp
    by_contra hne
    obtain ⟨_, _, _, _, _, herr⟩ := hraise hend ⟨p, hp, hne⟩
    exact absurd (hraised _ herr).1 (by simp)
  have hret : t.point = .returned := by
    cases hp : t.point with
    | returned => rfl
    | idle => exact absurd hp hidle
    | raised e =>
        obtain ⟨-, p, hmem, hne⟩ := hraised e hp
        exact absurd (hran p (mem_ran_of_waited ht hwaited hmem)) hne
    | outer | fill | spawn _ | poll | wait _ =>
        rw [hp] at hend
        exact hend.elim
  exact allSucceed_of_ran h hout ht happ hnew hret hran

/-- `wait_all` reports right exactly when every process it will run exits with code 0. -/
theorem waitAllReports_iff (h : Reachable (World.starting ends) maxJobs s)
    (hout : s.point.Outside) : WaitAllReports ends s ↔ AllSucceed ends s := by
  constructor
  · intro hrep
    by_cases hhalts : s.queue = [] ∨ (maxJobs.getD (.finite 4)).Above 0
    · obtain ⟨k, hend⟩ := (waitAll_halts_iff h hout).mpr hhalts
      exact allSucceed_of_reports h hout hrep hend
    · -- `wait_all` turns for ever, and runs nothing
      have hroom : ¬ s.maxJobs.Above 0 := by
        rw [h.bounded.maxJobs]
        exact fun habove => hhalts (Or.inr habove)
      have hnil := h.active_eq_nil hroom
      rw [hout.activeNow] at hnil
      exact ⟨by simp [hnil], fun habove => absurd habove hroom⟩
  · intro hall k t
    obtain ⟨new, ht, happ, -, hnew⟩ := h.call hout k
    have hran := hall.ran h hout ht happ hnew
    refine ⟨fun _ => hran, fun _ => ?_⟩
    rintro ⟨p, hp, hne⟩
    exact absurd (hran p hp) hne

end

/-- **On POSIX a command is reported right exactly when it exits with code 0, and a
`wait_all` exactly when every process it will run does.** -/
theorem reports_iff (ends : Nat → Ending) (h : Reachable (World.starting ends) maxJobs s)
    (hout : s.point.Outside) :
    (∀ n c, RunReports ends n c ↔ ends n = .success) ∧
      (WaitAllReports ends s ↔ AllSucceed ends s) :=
  ⟨runReports_iff ends, waitAllReports_iff h hout⟩

/-- With every exit code 0 the reports are right. -/
theorem reports_two :
    (∀ n c, RunReports (fun _ => .success) n c ↔ Ending.success = .success) ∧
      (WaitAllReports (fun _ => .success) (ccThenLd (.finite 1)) ↔
        AllSucceed (fun _ => .success) (ccThenLd (.finite 1))) :=
  reports_iff _ (.append _ (.append _ .new trivial) trivial) trivial

/-- A compiler killed by signal 11 counts as a success, and of one that exits with code 1
the error says neither the code nor the command. -/
theorem crash_reported :
    let crash : Nat → Ending := fun _ => .signaled 11 (by decide) false
    let fail : Nat → Ending := fun _ => .exited 1
    let s := (State.new none).append ⟨[ascii "cc"]⟩
    Cmd.run (World.starting crash) 0 ⟨[ascii "cc"]⟩ = .ok () ∧
      Cmd.run (World.starting fail) 0 ⟨[ascii "cc"]⟩ = .error .indexNumber ∧
      ((step (World.starting crash))^[9] s.waitAll).point = .returned ∧
      ((step (World.starting fail))^[6] s.waitAll).point = .raised .indexNumber ∧
      ¬ RunReports crash 0 ⟨[ascii "cc"]⟩ ∧ ¬ WaitAllReports crash s := by
  intro crash fail s
  have hreturned : ((step (World.starting crash))^[9] s.waitAll).point = .returned := by decide
  refine ⟨by decide, by decide, hreturned, by decide, fun h => ?_, fun h => ?_⟩
  · exact absurd (h.1 (by decide)) (by decide)
  · exact absurd ((h 9).1 hreturned ⟨0, ascii "cc"⟩ (by decide)) (by decide)

end Tmg.Nob
