import Isolyx.Library.Select
import Isolyx.Core.Command
import Mathlib.Algebra.Group.Nat.Defs
import Mathlib.Data.Int.Order.Basic

/-!
# Schedulers

The four implementations of `IScheduler`. All of them add a job at the back of
the deque; they differ in which job they take out. The front of a list is the
front of the deque.

Taking from an empty deque is undefined in the source, where `front()` and the
end iterator are dereferenced without a check. Here it returns `none`, and it
is the queue's business that it is never asked for.

## Main definitions

* `Scheduler`: The four schedulers.
* `Scheduler.addJob`: Adding a job to the deque.
* `Scheduler.getNextJob`: Taking the next job out of the deque.

## Theorems

* `getNextJob_perm`: A scheduler takes one job out and keeps the others.
* `getNextJob_isSome`: A scheduler finds a job in a non-empty deque.
* `mlfq_getNextJob`: Which job `MLFQScheduler` takes, as long as no sum overflows.
* `priority_getNextJob`: Which job `PriorityScheduler` takes.
-/

namespace Isolyx

/-- What a 32-bit register holds after an `int` addition. -/
def int32 (x : Int) : Int := x.bmod (2 ^ 32)

/-- A value that an `int` holds. -/
def Fits (x : Int) : Prop := -2147483648 ≤ x ∧ x ≤ 2147483647

instance (x : Int) : Decidable (Fits x) := inferInstanceAs (Decidable (_ ∧ _))

theorem int32_of_fits {x : Int} (h : Fits x) : int32 x = x := by
  unfold Fits at h
  exact Int.bmod_eq_of_le_mul_two (by omega) (by omega)

/-- What overflowed before an addition does not matter after it. -/
theorem int32_add (x y : Int) : int32 (x + int32 y) = int32 (x + y) := Int.add_bmod_bmod

namespace FCFSScheduler

def getNextJob : List Job → Option (Job × List Job)
  | [] => none
  | job :: jobs => some (job, jobs)

end FCFSScheduler

namespace RoundRobinScheduler

def getNextJob : List Job → Option (Job × List Job)
  | [] => none
  | job :: jobs => some (job, jobs)

end RoundRobinScheduler

namespace PriorityScheduler

def getNextJob (jobs : List Job) : Option (Job × List Job) :=
  Select.takeAt (Select.maxElement (fun a b => decide (a.priority < b.priority)) jobs) jobs

end PriorityScheduler

namespace MLFQScheduler

/-- The level a job competes at. -/
def key (job : Job) : Int := int32 (job.priority + job.elapsedBursts)

def getNextJob (jobs : List Job) : Option (Job × List Job) :=
  Select.takeAt (Select.minElement (fun a b => decide (key a < key b)) jobs) jobs

/-- The level, as a sum of integers. -/
def level (job : Job) : Int := job.priority + job.elapsedBursts

theorem key_eq_level {job : Job} (h : Fits (level job)) : key job = level job := int32_of_fits h

/-- `elapsed_bursts++`, which `workerLoop` does to a job before it requeues it. -/
def demote (job : Job) : Job := { job with elapsedBursts := int32 (job.elapsedBursts + 1) }

@[simp] theorem demote_id (job : Job) : (demote job).id = job.id := rfl

@[simp] theorem demote_resultPromise (job : Job) :
    (demote job).resultPromise = job.resultPromise := rfl

/-- A counter that counted to `k` counts to `k + 1`. -/
theorem demote_elapsedBursts {job : Job} {k : Nat} (h : job.elapsedBursts = int32 k) :
    (demote job).elapsedBursts = int32 (k + 1 : Nat) := by
  simp only [demote, h, Int.natCast_succ]
  rw [Int.add_comm, int32_add, Int.add_comm]

end MLFQScheduler

inductive Scheduler where
  | fcfs
  | priority
  | roundRobin
  | mlfq
  deriving DecidableEq, Repr

namespace Scheduler

/-- `addJob`, the same in all four. -/
def addJob (_ : Scheduler) (jobs : List Job) (job : Job) : List Job := jobs ++ [job]

def getNextJob : Scheduler → List Job → Option (Job × List Job)
  | fcfs => FCFSScheduler.getNextJob
  | priority => PriorityScheduler.getNextJob
  | roundRobin => RoundRobinScheduler.getNextJob
  | mlfq => MLFQScheduler.getNextJob

theorem getNextJob_perm {sched : Scheduler} {jobs rest : List Job} {job : Job}
    (h : sched.getNextJob jobs = some (job, rest)) : jobs.Perm (job :: rest) := by
  cases sched with
  | fcfs =>
      cases jobs with
      | nil => simp only [getNextJob, FCFSScheduler.getNextJob, reduceCtorEq] at h
      | cons j js =>
          simp only [getNextJob, FCFSScheduler.getNextJob, Option.some.injEq,
            Prod.mk.injEq] at h
          rw [h.1, h.2]
  | roundRobin =>
      cases jobs with
      | nil => simp only [getNextJob, RoundRobinScheduler.getNextJob, reduceCtorEq] at h
      | cons j js =>
          simp only [getNextJob, RoundRobinScheduler.getNextJob, Option.some.injEq,
            Prod.mk.injEq] at h
          rw [h.1, h.2]
  | priority => exact Select.takeAt_perm h
  | mlfq => exact Select.takeAt_perm h

theorem getNextJob_isSome (sched : Scheduler) {jobs : List Job} (h : jobs ≠ []) :
    (sched.getNextJob jobs).isSome := by
  cases sched with
  | fcfs =>
      cases jobs with
      | nil => exact absurd rfl h
      | cons j js => rfl
  | roundRobin =>
      cases jobs with
      | nil => exact absurd rfl h
      | cons j js => rfl
  | priority => exact Select.takeAt_isSome (Select.minElement_lt _ h)
  | mlfq => exact Select.takeAt_isSome (Select.minElement_lt _ h)

/-- The first of the jobs with the least level, the others keeping their order. -/
theorem mlfq_getNextJob {jobs rest : List Job} {job : Job}
    (hfits : ∀ x ∈ jobs, Fits (MLFQScheduler.level x))
    (h : mlfq.getNextJob jobs = some (job, rest)) :
    ∃ pre post, jobs = pre ++ job :: post ∧ rest = pre ++ post ∧
      Select.FirstLeast MLFQScheduler.level pre job post := by
  rcases Select.takeAt_minElement MLFQScheduler.key h with ⟨pre, post, hsplit, hrest, hfirst⟩
  have hkey : ∀ x ∈ jobs, MLFQScheduler.key x = MLFQScheduler.level x :=
    fun x hx => MLFQScheduler.key_eq_level (hfits x hx)
  have hjob := hkey job (hsplit ▸ List.mem_append_right pre List.mem_cons_self)
  refine ⟨pre, post, hsplit, hrest, fun y hy => ?_, fun y hy => ?_⟩
  · rw [← hjob, ← hkey y (hsplit ▸ List.mem_append_left _ hy)]
    exact hfirst.before y hy
  · rw [← hjob, ← hkey y (hsplit ▸ List.mem_append_right pre (List.mem_cons_of_mem job hy))]
    exact hfirst.after y hy

/-- The first of the jobs with the greatest priority. -/
theorem priority_getNextJob {jobs rest : List Job} {job : Job}
    (h : priority.getNextJob jobs = some (job, rest)) :
    ∃ pre post, jobs = pre ++ job :: post ∧ rest = pre ++ post ∧
      (∀ x ∈ pre, x.priority < job.priority) ∧ ∀ x ∈ post, x.priority ≤ job.priority :=
  Select.takeAt_maxElement Job.priority h

end Scheduler

end Isolyx
