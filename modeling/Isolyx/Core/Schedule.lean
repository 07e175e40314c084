import Isolyx.Core.Pool
import Isolyx.Library.Service

/-!
# Orders of Service

What a scheduler does over a whole run: the sequence of the jobs that are taken
out of the deque. In a run of the pool it is read off the steps that take a
job.

One worker with a batch of jobs leaves nothing to chance. A job that is
preempted comes back before the next one is taken, so the sequence depends on
the scheduler, the batch and the number of bursts each job needs, and on
nothing else. `schedule` computes it from these.

## Main definitions

* `served`: The jobs a run takes out of the deque.
* `Follows`: Jobs are preempted until they have had the bursts they need.
* `BatchRun`: A run of one worker over a batch of jobs.
* `schedule`: The sequence for one worker and a batch.
-/

namespace Isolyx

namespace Pool

variable {n : Nat}

/-- The job a step takes out of the deque. -/
def taken (sched : Scheduler) (s : State n) : Action n → Option Job
  | .dequeue w =>
      if s.workers w = .dequeuing then (sched.getNextJob s.jobs).map Prod.fst else none
  | _ => none

/-- The jobs a run takes out of the deque, in their order. -/
def served (sched : Scheduler) (s : State n) (actions : List (Action n)) : List Job :=
  Lts.trace (step sched) (taken sched) s actions

/-- A job that needs `d` bursts is preempted `d - 1` times and then finishes.
    The history counts them, since the counter in the job may overflow. -/
def Follows (d : Nat → Nat) (s : State n) : Action n → Prop
  | .execute w res _ _ => ∀ job, s.workers w = .executing job →
      (res.preempted = true ↔ s.requeued.count job.id + 1 < d job.id)
  | _ => True

/-- A run of one worker: jobs are enqueued, and from the moment the first one
    is taken no more. -/
structure BatchRun (sched : Scheduler) (d : Nat → Nat) where
  before : List (Action 1)
  after : List (Action 1)
  start : State 1
  final : State 1
  reaches : Lts.run (step sched) (init 1) before = some start
  untouched : served sched (init 1) before = []
  runs : Lts.run (step sched) start after = some final
  closed : ∀ a ∈ after, ∀ sub wake, a ≠ .enqueue sub wake
  follows : Lts.Along (step sched) (Follows d) start after

namespace BatchRun

variable {sched : Scheduler} {d : Nat → Nat} (r : BatchRun sched d)

/-- The jobs, in the order they were enqueued. -/
def batch : List Job := r.start.jobs

/-- The ids of the jobs that were dequeued, in their order. -/
def order : List Nat := (served sched r.start r.after).map Job.id

/-- The deque is empty and the worker has done with its last job. -/
def Finished : Prop := r.final.jobs = [] ∧ ∀ w, (r.final.workers w).job? = none

end BatchRun

/-- What comes back of a job when its burst is over, if its counter is a number
    that does not overflow. -/
def resubmitted (d : Nat → Nat) (job : Job) : Option Job :=
  if job.elapsedBursts + 1 < d job.id then
    some { job with elapsedBursts := job.elapsedBursts + 1 }
  else none

/-- The order in which one worker dequeues the jobs of a batch. -/
def schedule (sched : Scheduler) (d : Nat → Nat) (batch : List Job) : List Nat :=
  (Service.serve sched.getNextJob (resubmitted d)
    (batch.map fun job => d job.id).sum batch).map Job.id

end Pool

end Isolyx
