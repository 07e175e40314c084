import Isolyx.Theory.Release

/-!
# Verdict, Exit Code and Promise

The verdict and the promise are derived from `success` alone, the exit code is
set beside it, and whether the two agree is up to each path that fills a result
in. The isolator's paths do: an end of the process sets both from one status,
and every other return leaves both at a failure (`isolateAndRun_result`).

`execute` does not, on two of its own. For a command without a program it
reports success and leaves the exit code at −1. And it takes over what
`handleBuiltin` says, which is always that it succeeded, with or without a
change of the directory.

## Main definitions

* `Earned`: There is a success to report.
* `Consistent`: Verdict, exit code and promise agree, and are earned.

## Theorems

* `verdictOf_eq_success`: The verdict is derived from `success` alone.
* `isolateAndRun_result`: The results of the isolator.
* `consistent_iff`: The jobs whose result is consistent.
-/

namespace Isolyx

namespace Isolator

open Descriptors (standard)
open Executor (Factories Isolation execute)
open Lifecycle (WaitStatus resultOf)

/-- The directory of `cd` is there and was changed to. -/
def ChangesDirectory (job : Job) (chdirs : Bool) : Prop :=
  2 ≤ job.cmd.arguments.length ∧ chdirs = true

/-- The program of a job was reported to have exited with 0, or its `chdir`
    succeeded. -/
def Earned (job : Job) (host : Host) (chdirs : Bool) : Prop :=
  if job.cmd.executable = ascii "cd" then ChangesDirectory job chdirs
  else .ended (.program (.exited 0)) ∈ host.reports

/-- What the worker submits and what it sets the promise to agree. -/
structure Consistent (job : Job) (r : ExecutionResult) (earned : Prop) : Prop where
  verdict : (jobResult job r).verdict = .success ↔
    (jobResult job r).exitCode = 0 ∧ (jobResult job r).termSignal = 0
  promise : promiseValue r = 0 ↔
    (jobResult job r).exitCode = 0 ∧ (jobResult job r).termSignal = 0
  earned : (jobResult job r).exitCode = 0 → earned

/-- The verdict is derived from `success` alone. -/
theorem verdictOf_eq_success (r : ExecutionResult) : verdictOf r = .success ↔ r.success = true := by
  rw [verdictOf]
  split_ifs with h
  · exact iff_of_true rfl h
  · exact iff_of_false (by simp) h
  · exact iff_of_false (by simp) h
  · exact iff_of_false (by simp) h
  · exact iff_of_false (by simp) h

theorem promiseValue_eq_zero (r : ExecutionResult) : promiseValue r = 0 ↔ r.success = true := by
  rw [promiseValue]
  split_ifs with h
  · exact iff_of_true rfl h
  · exact iff_of_false (by decide) h

theorem consistent_of_success {job : Job} {r : ExecutionResult} {earned : Prop}
    (h : r.success = true ↔ r.exitCode = 0 ∧ r.termSignal = 0) (he : r.exitCode = 0 → earned) :
    Consistent job r earned where
  verdict := (verdictOf_eq_success r).trans h
  promise := (promiseValue_eq_zero r).trans h
  earned := he

/-! ## The isolator -/

theorem poll_mem {reports : List Report} {report : Report} (h : poll reports = some report) :
    report ∈ reports := by
  fun_induction poll reports with
  | case1 => exact absurd h (by simp)
  | case2 rest ih => exact List.mem_cons_of_mem _ (ih h)
  | case3 first rest hfirst => exact Option.some.inj h ▸ List.mem_cons_self

theorem block_mem {reports : List Report} {report : Report} (h : block reports = some report) :
    report ∈ reports := by
  fun_induction block reports with
  | case1 => exact absurd h (by simp)
  | case2 rest ih => exact List.mem_cons_of_mem _ (ih h)
  | case3 rest ih => exact List.mem_cons_of_mem _ (ih h)
  | case4 first rest hfirst hstopped => exact Option.some.inj h ▸ List.mem_cons_self

/-- What a wait reports is one of the reports. -/
theorem wait_mem {timeQuantum : Int} {reports : List Report} {report : Report}
    (h : wait timeQuantum reports = some report) : report ∈ reports := by
  rw [wait] at h
  split_ifs at h
  · exact poll_mem h
  · exact block_mem h

/-- Collecting the outputs adds them to the result. -/
theorem collect_result {s t : State} {job j : Job} {result r : ExecutionResult}
    (h : collect s job result = some (t, j, r)) :
    ∃ out err, r = { result with stdoutOut := out, stderrOut := err } := by
  rw [collect] at h
  by_cases hid : 0 < job.uniqueId
  · simp only [hid, if_true, Option.bind_eq_some_iff, Option.map_eq_some_iff, Prod.mk.injEq] at h
    rcases h with ⟨⟨u, out, stdoutOut⟩, -, ⟨v, err, stderrOut⟩, -, -, -, hr⟩
    exact ⟨stdoutOut, stderrOut, hr.symm⟩
  · simp only [hid, if_false, Option.some.injEq, Prod.mk.injEq] at h
    exact ⟨result.stdoutOut, result.stderrOut, h.2.2.symm⟩

/-- What a result of the isolator is: nothing came of it, or it is a
    preemption, or it was made from the end of the process. -/
theorem isolateAndRun_result {members : Nat} {host : Host} {job j : Job} {s t : State}
    {r : ExecutionResult} (h : isolateAndRun members host job s = some (t, j, r)) :
    r = {} ∨ r.preempted = true ∨
      ∃ ending out err, .ended ending ∈ host.reports ∧
        r = { resultOf ending.status with stdoutOut := out, stderrOut := err } := by
  rw [isolateAndRun] at h
  by_cases hempty : job.cmd.isEmpty = true
  · rw [if_pos hempty] at h
    simp only [Option.some.injEq, Prod.mk.injEq] at h
    exact .inl h.2.2.symm
  · rw [if_neg hempty] at h
    generalize (if job.pid ≤ 0 then launch members host job s
      else ({ s with children := job.pid :: s.children }, job, true)) = started at h
    rcases started with ⟨u, k, goesOn⟩
    cases goesOn with
    | false =>
        simp only [Bool.false_eq_true, if_false, Option.some.injEq, Prod.mk.injEq] at h
        exact .inl h.2.2.symm
    | true =>
        simp only [if_true, Option.bind_eq_some_iff] at h
        rcases h with ⟨report, hwait, h⟩
        cases report with
        | nothing => exact absurd h (by simp [handle])
        | ended ending =>
            rcases collect_result h with ⟨out, err, hr⟩
            exact .inr (.inr ⟨ending, out, err, wait_mem hwait, hr⟩)
        | stopped =>
            simp only [handle, Option.some.injEq, Prod.mk.injEq] at h
            exact .inr (.inl (h.2.2 ▸ rfl))
        | failed gone =>
            simp only [handle, Option.some.injEq, Prod.mk.injEq] at h
            exact .inl h.2.2.symm

theorem resultOf_success (status : WaitStatus) :
    (resultOf status).success = true ↔
      (resultOf status).exitCode = 0 ∧ (resultOf status).termSignal = 0 := by
  cases status with
  | exited code =>
      rw [resultOf, beq_iff_eq, Int.natCast_eq_zero, and_iff_left rfl]
      exact ⟨fun h => h ▸ rfl, fun h => UInt8.toNat_inj.mp h⟩
  | signaled sig =>
      exact iff_of_false Bool.false_ne_true fun h => absurd h.1 (by simp [resultOf])

/-- An exit with 0 is the program's: `child_entry` returns nothing but −1. -/
theorem exited_zero {ending : Ending} (h : (resultOf ending.status).exitCode = 0) :
    ending = .program (.exited 0) := by
  cases ending with
  | program status =>
      cases status with
      | exited code =>
          have hcode : code = 0 := UInt8.toNat_inj.mp (Int.natCast_eq_zero.mp h)
          rw [hcode]
      | signaled sig => exact absurd h (by simp [Ending.status, resultOf])
  | gaveUp => exact absurd h (by decide)
  | killed sig => exact absurd h (by simp [Ending.status, resultOf])

/-! ## The worker's jobs -/

/-- The isolator's results are consistent. -/
theorem consistent_of_isolated {members : Nat} {host : Host} {job j : Job} {s t : State}
    {r : ExecutionResult} (h : isolateAndRun members host job s = some (t, j, r))
    (hp : r.preempted = false) :
    Consistent job r (.ended (.program (.exited 0)) ∈ host.reports) := by
  rcases isolateAndRun_result h with rfl | hpre | ⟨ending, out, err, hmem, rfl⟩
  · exact consistent_of_success (by decide) fun h => absurd h (by decide)
  · exact absurd (hp.symm.trans hpre) Bool.false_ne_true
  · exact consistent_of_success (resultOf_success ending.status) fun h => exited_zero h ▸ hmem

/-- The result of a job is consistent exactly if its command names a program,
    and a directory that can be changed to if that is `cd`. -/
theorem consistent_iff {f : Factories} {st : Executor.State} {isolation : Isolation}
    {members : Nat} {host : Host} {job j : Job} {s t : State} {r : ExecutionResult} (chdirs : Bool)
    (hiso : isolateAndRun members host job s = some (t, j, isolation.result))
    (h : (execute f st job isolation).2 = some r) (hp : r.preempted = false) :
    Consistent job r (Earned job host chdirs) ↔
      job.cmd.isEmpty = false ∧
        (job.cmd.executable = ascii "cd" → ChangesDirectory job chdirs) := by
  rw [execute] at h
  cases hempty : job.cmd.isEmpty with
  | true =>
      -- A success with the exit code −1.
      rw [hempty, if_pos rfl] at h
      refine iff_of_false (fun hc => ?_) fun hc => absurd hc.1 (by decide)
      have hr : r = { success := true } := (Option.some.inj h).symm
      have hzero := (hc.verdict.mp ((verdictOf_eq_success r).mpr (hr ▸ rfl))).1
      rw [hr] at hzero
      exact absurd hzero (by simp [jobResult])
  | false =>
      rw [hempty, if_neg Bool.false_ne_true] at h
      by_cases hexit : job.cmd.executable = ascii "exit"
      · rw [if_pos hexit] at h
        exact absurd h (by simp)
      · rw [if_neg hexit] at h
        by_cases hcd : job.cmd.executable = ascii "cd"
        · have hbuiltin : job.cmd.isBuiltin = true := by
            rw [Command.isBuiltin, hcd]
            rfl
          rw [if_pos hbuiltin] at h
          have hr : r = { exitCode := 0, success := true } := (Option.some.inj h).symm
          rw [Earned, if_pos hcd, hr]
          exact ⟨fun hc => ⟨rfl, fun _ => hc.earned rfl⟩,
            fun hc => consistent_of_success (by decide) fun _ => hc.2 hcd⟩
        · have hbuiltin : ¬ job.cmd.isBuiltin = true := by
            simp only [Command.isBuiltin, hcd, hexit, decide_false, Bool.or_false,
              Bool.false_eq_true, not_false_eq_true]
          rw [if_neg hbuiltin] at h
          have hr : isolation.result = r := Option.some.inj h
          rw [Earned, if_neg hcd]
          exact iff_of_true (consistent_of_isolated (hr ▸ hiso) hp)
            ⟨rfl, fun hc => absurd hc hcd⟩

/-- A program that exits with 3, run in isolation. -/
theorem consistent_failure :
    ∃ t j r, isolateAndRun 1 (smooth 3) fresh
        (init standard 1 (.present (.reads []) true) (.present (.reads []) true)) =
          some (t, j, r) ∧ r.exitCode = 3 ∧ Consistent fresh r (Earned fresh (smooth 3) false) := by
  have hresult : (isolateAndRun 1 (smooth 3) fresh
      (init standard 1 (.present (.reads []) true) (.present (.reads []) true))).map
        (fun x => x.2.2) = some { exitCode := 3 } := by decide
  rcases Option.map_eq_some_iff.mp hresult with ⟨⟨t, j, r⟩, h, rfl⟩
  refine ⟨t, j, _, h, rfl, ?_⟩
  have hexecute : (execute ⟨true, true, true⟩ Executor.init fresh ⟨true, { exitCode := 3 }⟩).2 =
      some { exitCode := 3 } := rfl
  exact (consistent_iff false h hexecute rfl).mpr ⟨rfl, fun hcd => absurd hcd (by decide)⟩

/-- A job line with an empty executable is a success with the exit code −1. -/
theorem empty_succeeds :
    (execute ⟨true, true, true⟩ Executor.init { id := 1, cmd := {}, resultPromise := some 0 }
        ⟨false, {}⟩).2 = some { success := true } ∧
      (jobResult { id := 1, cmd := {}, resultPromise := some 0 } { success := true }).verdict =
        .success ∧
      (jobResult { id := 1, cmd := {}, resultPromise := some 0 } { success := true }).exitCode =
        -1 ∧
      ¬ Consistent { id := 1, cmd := {}, resultPromise := some 0 } { success := true }
        (Earned { id := 1, cmd := {}, resultPromise := some 0 } (smooth 0) false) := by
  refine ⟨rfl, rfl, rfl, fun h => ?_⟩
  exact absurd (h.verdict.mp rfl).1 (by decide)

end Isolator

end Isolyx
