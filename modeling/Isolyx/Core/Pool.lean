import Isolyx.Library.Run
import Isolyx.Core.Scheduler
import Mathlib.Data.Fintype.Basic
import Mathlib.Logic.Function.Basic

/-!
# The Job Queue and the Worker Pool

`InMemoryJobQueue` and `WorkerPool` as one system: any number of clients
enqueue jobs, `n` workers run `workerLoop`, and the pool may be stopped at any
moment. An action is one step of one thread. A critical section of the queue
is one step, the mutex making it so, and `cv_.wait` releases the mutex and
blocks in one step. What a worker does to the job in its own hands between two
shared accesses belongs to the step that follows.

An execution is opaque here: it may return any result, and may rewrite the two
fields of the job it is given by reference. `submitResult` returns: nothing
catches an exception of an observer, which would end the engine, so the runs
here are those in which none throws (`Core/Locks` has the others).

A client hands over a job whose id and promise no accepted job has, the way
`main` and the benchmark make them, and never enqueues it twice. The remaining
fields are the defaults of `Job`, except those a submission names.

The state carries a history next to what the program holds: which jobs were
accepted, requeued, submitted and completed. No step reads it. `undefined`
records that a job was asked of an empty deque and `broken` that a promise was
set twice, which would throw.

## Main definitions

* `Worker`: Where a worker is in `workerLoop`, and what it holds.
* `State`: The queue, the pool and the history.
* `Action`: One step of one thread.
* `step`: The transition function.
* `Moves`: Its transitions, one by one.
* `init`: The state `WorkerPool::start` leaves.
-/

namespace Isolyx

namespace Pool

/-- Where a worker is in `workerLoop`. -/
inductive Worker where
  /-- About to test `running_`. -/
  | atLoopHead
  /-- In `dequeue`, about to take the mutex and test the predicate. -/
  | dequeuing
  /-- Blocked in `cv_.wait`, not notified. -/
  | waiting
  /-- In `Executor::execute`. -/
  | executing (job : Job)
  /-- The execution was preempted; the job is about to be requeued. -/
  | requeueing (job : Job)
  /-- The outcome is final; `submitResult` is still to be called. -/
  | finished (job : Job) (res : ExecutionResult)
  /-- In `submitResult`. -/
  | submitting (job : Job) (res : ExecutionResult)
  /-- `submitResult` returned; the promise is still to be set. -/
  | submitted (job : Job) (res : ExecutionResult)
  /-- At the end of the iteration. -/
  | settled (job : Job)
  /-- The loop was left. -/
  | gone
  deriving DecidableEq, Repr

/-- The job in a worker's hands. -/
def Worker.job? : Worker → Option Job
  | executing job => some job
  | requeueing job => some job
  | finished job _ => some job
  | submitting job _ => some job
  | submitted job _ => some job
  | settled job => some job
  | _ => none

/-- Where the thread that calls `WorkerPool::stop` is. -/
inductive Stopper where
  | notCalled
  /-- `running_` is cleared, the queue is not stopped yet. -/
  | flagged
  /-- The queue is stopped, the workers are being joined. -/
  | joining
  | returned
  deriving DecidableEq, Repr

structure State (n : Nat) where
  jobs : List Job
  stopping : Bool
  running : Bool
  workers : Fin n → Worker
  stopper : Stopper
  satisfied : List Nat
  undefined : Bool
  broken : Bool
  accepted : List Job
  requeued : List Nat
  submissions : List Nat
  returned : List Nat
  completed : List Nat

/-- What a client decides about a job it submits. -/
structure Submission where
  id : Nat
  cmd : Command
  resultPromise : Option Nat
  priority : Int := 0
  timeQuantum : Int := 0
  deriving DecidableEq, Repr

def Submission.job (sub : Submission) : Job where
  id := sub.id
  cmd := sub.cmd
  resultPromise := sub.resultPromise
  priority := sub.priority
  timeQuantum := sub.timeQuantum

inductive Action (n : Nat) where
  /-- A client enqueues a new job; `wake` is the waiter `notify_one` picks. -/
  | enqueue (sub : Submission) (wake : Option (Fin n))
  | testRunning (w : Fin n)
  | dequeue (w : Fin n)
  | wakeSpuriously (w : Fin n)
  | execute (w : Fin n) (res : ExecutionResult) (pid uniqueId : Int)
  | requeue (w : Fin n) (wake : Option (Fin n))
  | callSubmitResult (w : Fin n)
  | returnFromSubmitResult (w : Fin n)
  | setPromise (w : Fin n)
  | endIteration (w : Fin n)
  | clearRunning
  | stopQueue
  | joinWorkers

variable {n : Nat}

def setWorker (s : State n) (w : Fin n) (v : Worker) : State n :=
  { s with workers := Function.update s.workers w v }

theorem setWorker_workers_self (s : State n) (w : Fin n) (v : Worker) :
    (setWorker s w v).workers w = v := by
  simp only [setWorker, Function.update_self]

theorem setWorker_workers_other (s : State n) (w x : Fin n) (v : Worker) (h : x ≠ w) :
    (setWorker s w v).workers x = s.workers x := by
  simp only [setWorker, Function.update_of_ne h]

theorem workers_setWorker (s : State n) (w x : Fin n) (v : Worker) :
    (setWorker s w v).workers x = if x = w then v else s.workers x := by
  by_cases h : x = w
  · rw [if_pos h, h, setWorker_workers_self]
  · rw [if_neg h, setWorker_workers_other s w x v h]

/-- A job found in some worker's hands after worker `w` moved on is the one
    that worker now holds or was in the same hands before. -/
theorem job?_setWorker {s : State n} {w x : Fin n} {v : Worker} {job : Job}
    (h : ((setWorker s w v).workers x).job? = some job) :
    v.job? = some job ∨ (x ≠ w ∧ (s.workers x).job? = some job) := by
  by_cases hxw : x = w
  · rw [hxw, setWorker_workers_self] at h
    exact Or.inl h
  · rw [setWorker_workers_other s w x v hxw] at h
    exact Or.inr ⟨hxw, h⟩

/-- `notify_one`: one blocked worker wakes, any of them, if there is one. -/
def notifyOne (workers : Fin n → Worker) : Option (Fin n) → Option (Fin n → Worker)
  | some w => if workers w = .waiting then some (Function.update workers w .dequeuing) else none
  | none => if ∃ w, workers w = .waiting then none else some workers

/-- `notify_all`. -/
def notifyAll (workers : Fin n → Worker) : Fin n → Worker :=
  fun w => if workers w = .waiting then .dequeuing else workers w

theorem notifyOne_eq {ws ws' : Fin n → Worker} {wake : Option (Fin n)}
    (h : notifyOne ws wake = some ws') {v : Worker} (hw : v ≠ .waiting) (hd : v ≠ .dequeuing)
    (x : Fin n) : ws' x = v ↔ ws x = v := by
  cases wake with
  | none =>
      simp only [notifyOne, Option.ite_none_left_eq_some, Option.some.injEq] at h
      rw [h.2]
  | some w =>
      simp only [notifyOne, Option.ite_none_right_eq_some, Option.some.injEq] at h
      rw [← h.2]
      by_cases hx : x = w
      -- the one that wakes was waiting and is about to test the predicate
      · rw [hx, Function.update_self, h.1]
        exact ⟨fun he => absurd he.symm hd, fun he => absurd he.symm hw⟩
      · rw [Function.update_of_ne hx]

theorem notifyAll_eq (ws : Fin n → Worker) {v : Worker} (hw : v ≠ .waiting)
    (hd : v ≠ .dequeuing) (x : Fin n) : notifyAll ws x = v ↔ ws x = v := by
  simp only [notifyAll]
  split
  · rename_i hx
    rw [hx]
    exact ⟨fun he => absurd he.symm hd, fun he => absurd he.symm hw⟩
  · rfl

theorem job?_notifyOne {ws ws' : Fin n → Worker} {wake : Option (Fin n)}
    (h : notifyOne ws wake = some ws') (w : Fin n) : (ws' w).job? = (ws w).job? := by
  cases wake with
  | none =>
      simp only [notifyOne] at h
      split at h
      · simp only [reduceCtorEq] at h
      · rw [Option.some.inj h]
  | some x =>
      simp only [notifyOne] at h
      split at h
      · rename_i hx
        rw [← Option.some.inj h]
        by_cases hwx : w = x
        · rw [hwx, Function.update_self, hx]
          rfl
        · rw [Function.update_of_ne hwx]
      · simp only [reduceCtorEq] at h

theorem job?_notifyAll (ws : Fin n → Worker) (w : Fin n) :
    (notifyAll ws w).job? = (ws w).job? := by
  simp only [notifyAll]
  split
  · rename_i hw
    rw [hw]
    rfl
  · rfl

/-- `InMemoryJobQueue::enqueue`. -/
def enqueue (sched : Scheduler) (s : State n) (job : Job) (wake : Option (Fin n)) :
    Option (State n) :=
  match notifyOne s.workers wake with
  | none => none
  | some workers => some { s with jobs := sched.addJob s.jobs job, workers := workers }

/-- The critical section of `InMemoryJobQueue::dequeue`, with what the worker
    does next. -/
def dequeue (sched : Scheduler) (s : State n) (w : Fin n) : State n :=
  -- the predicate of `cv_.wait`, and the test for leaving the loop after it
  if s.jobs.isEmpty && !s.stopping then setWorker s w .waiting
  else if s.stopping && s.jobs.isEmpty then setWorker s w .gone
  else match sched.getNextJob s.jobs with
    | none => { s with undefined := true }
    | some (job, rest) => setWorker { s with jobs := rest } w (.executing job)

/-- A submission is new: no accepted job has its id or its promise. -/
def Submission.isNew (sub : Submission) (accepted : List Job) : Bool :=
  accepted.all fun a => a.id != sub.id &&
    (sub.resultPromise.isNone || a.resultPromise != sub.resultPromise)

theorem isNew_iff (sub : Submission) (accepted : List Job) :
    sub.isNew accepted = true ↔ ∀ a ∈ accepted, a.id ≠ sub.id ∧
      (sub.resultPromise = none ∨ a.resultPromise ≠ sub.resultPromise) := by
  simp only [Submission.isNew, List.all_eq_true, Bool.and_eq_true, bne_iff_ne, ne_eq,
    Bool.or_eq_true, Option.isNone_iff_eq_none]

def step (sched : Scheduler) (s : State n) : Action n → Option (State n)
  | .enqueue sub wake =>
      if sub.isNew s.accepted then
        -- the history records the job in the critical section that adds it
        enqueue sched { s with accepted := s.accepted ++ [sub.job] } sub.job wake
      else none
  | .testRunning w => match s.workers w with
      | .atLoopHead => some (setWorker s w (if s.running then .dequeuing else .gone))
      | _ => none
  | .dequeue w => match s.workers w with
      | .dequeuing => some (dequeue sched s w)
      | _ => none
  | .wakeSpuriously w => match s.workers w with
      | .waiting => some (setWorker s w .dequeuing)
      | _ => none
  | .execute w res pid uniqueId => match s.workers w with
      | .executing job =>
          -- `execute` takes the job by reference; the requeued job keeps its pid
          let job' := { job with pid := pid, uniqueId := uniqueId }
          some (setWorker s w (if res.preempted then .requeueing job' else .finished job' res))
      | _ => none
  | .requeue w wake => match s.workers w with
      | .requeueing job =>
          enqueue sched { setWorker s w .atLoopHead with requeued := job.id :: s.requeued }
            (MLFQScheduler.demote job) wake
      | _ => none
  | .callSubmitResult w => match s.workers w with
      | .finished job res => some { setWorker s w (.submitting job res) with
          submissions := job.id :: s.submissions }
      | _ => none
  | .returnFromSubmitResult w => match s.workers w with
      | .submitting job res => some { setWorker s w (.submitted job res) with
          returned := job.id :: s.returned }
      | _ => none
  | .setPromise w => match s.workers w with
      | .submitted job _ => match job.resultPromise with
        | none => some (setWorker s w (.settled job))
        | some p =>
            -- `set_value` on a satisfied promise throws
            if p ∈ s.satisfied then some { setWorker s w .gone with broken := true }
            else some { setWorker s w (.settled job) with satisfied := p :: s.satisfied }
      | _ => none
  | .endIteration w => match s.workers w with
      | .settled job => some { setWorker s w .atLoopHead with
          completed := job.id :: s.completed }
      | _ => none
  | .clearRunning =>
      if s.stopper = .notCalled then some { s with running := false, stopper := .flagged } else none
  | .stopQueue =>
      if s.stopper = .flagged then
        some { s with stopping := true, stopper := .joining, workers := notifyAll s.workers }
      else none
  | .joinWorkers =>
      if s.stopper = .joining ∧ ∀ w, s.workers w = .gone then some { s with stopper := .returned }
      else none

/-- The transitions of `step`, one constructor for each outcome of an action.
    A job is never asked of an empty deque, so that outcome is not among them. -/
inductive Moves (sched : Scheduler) (s : State n) : Action n → State n → Prop
  | enqueues (sub : Submission) (wake : Option (Fin n)) (ws : Fin n → Worker)
      (hnew : sub.isNew s.accepted = true) (hwake : notifyOne s.workers wake = some ws) :
      Moves sched s (.enqueue sub wake) { s with
        accepted := s.accepted ++ [sub.job], jobs := s.jobs ++ [sub.job], workers := ws }
  | enters (w : Fin n) (hw : s.workers w = .atLoopHead) (hr : s.running = true) :
      Moves sched s (.testRunning w) (setWorker s w .dequeuing)
  | leaves (w : Fin n) (hw : s.workers w = .atLoopHead) (hr : s.running = false) :
      Moves sched s (.testRunning w) (setWorker s w .gone)
  | blocks (w : Fin n) (hw : s.workers w = .dequeuing) (hj : s.jobs = [])
      (hs : s.stopping = false) : Moves sched s (.dequeue w) (setWorker s w .waiting)
  | departs (w : Fin n) (hw : s.workers w = .dequeuing) (hj : s.jobs = [])
      (hs : s.stopping = true) : Moves sched s (.dequeue w) (setWorker s w .gone)
  | takes (w : Fin n) (job : Job) (rest : List Job) (hw : s.workers w = .dequeuing)
      (hg : sched.getNextJob s.jobs = some (job, rest)) :
      Moves sched s (.dequeue w) (setWorker { s with jobs := rest } w (.executing job))
  | wakes (w : Fin n) (hw : s.workers w = .waiting) :
      Moves sched s (.wakeSpuriously w) (setWorker s w .dequeuing)
  | preempts (w : Fin n) (job : Job) (res : ExecutionResult) (pid uniqueId : Int)
      (hw : s.workers w = .executing job) (hp : res.preempted = true) :
      Moves sched s (.execute w res pid uniqueId)
        (setWorker s w (.requeueing { job with pid := pid, uniqueId := uniqueId }))
  | finishes (w : Fin n) (job : Job) (res : ExecutionResult) (pid uniqueId : Int)
      (hw : s.workers w = .executing job) (hp : res.preempted = false) :
      Moves sched s (.execute w res pid uniqueId)
        (setWorker s w (.finished { job with pid := pid, uniqueId := uniqueId } res))
  | requeues (w : Fin n) (job : Job) (wake : Option (Fin n)) (ws : Fin n → Worker)
      (hw : s.workers w = .requeueing job)
      (hwake : notifyOne (setWorker s w .atLoopHead).workers wake = some ws) :
      Moves sched s (.requeue w wake) { s with
        requeued := job.id :: s.requeued
        jobs := s.jobs ++ [MLFQScheduler.demote job]
        workers := ws }
  | files (w : Fin n) (job : Job) (res : ExecutionResult) (hw : s.workers w = .finished job res) :
      Moves sched s (.callSubmitResult w)
        { setWorker s w (.submitting job res) with submissions := job.id :: s.submissions }
  | reports (w : Fin n) (job : Job) (res : ExecutionResult)
      (hw : s.workers w = .submitting job res) :
      Moves sched s (.returnFromSubmitResult w)
        { setWorker s w (.submitted job res) with returned := job.id :: s.returned }
  | passes (w : Fin n) (job : Job) (res : ExecutionResult)
      (hw : s.workers w = .submitted job res) (hp : job.resultPromise = none) :
      Moves sched s (.setPromise w) (setWorker s w (.settled job))
  | breaks (w : Fin n) (job : Job) (res : ExecutionResult) (p : Nat)
      (hw : s.workers w = .submitted job res) (hp : job.resultPromise = some p)
      (hset : p ∈ s.satisfied) :
      Moves sched s (.setPromise w) { setWorker s w .gone with broken := true }
  | pays (w : Fin n) (job : Job) (res : ExecutionResult) (p : Nat)
      (hw : s.workers w = .submitted job res) (hp : job.resultPromise = some p)
      (hset : p ∉ s.satisfied) :
      Moves sched s (.setPromise w)
        { setWorker s w (.settled job) with satisfied := p :: s.satisfied }
  | ends (w : Fin n) (job : Job) (hw : s.workers w = .settled job) :
      Moves sched s (.endIteration w)
        { setWorker s w .atLoopHead with completed := job.id :: s.completed }
  | clears (hs : s.stopper = .notCalled) :
      Moves sched s .clearRunning { s with running := false, stopper := .flagged }
  | stops (hs : s.stopper = .flagged) :
      Moves sched s .stopQueue
        { s with stopping := true, stopper := .joining, workers := notifyAll s.workers }
  | joins (hs : s.stopper = .joining) (hw : ∀ w, s.workers w = .gone) :
      Moves sched s .joinWorkers { s with stopper := .returned }

theorem moves_of_enqueue {sched : Scheduler} {s t : State n} {job : Job} {wake : Option (Fin n)}
    (h : enqueue sched s job wake = some t) : ∃ ws, notifyOne s.workers wake = some ws ∧
      t = { s with jobs := s.jobs ++ [job], workers := ws } := by
  rw [enqueue] at h
  cases hws : notifyOne s.workers wake with
  | none => simp only [hws, reduceCtorEq] at h
  | some ws =>
      simp only [hws, Option.some.injEq] at h
      exact ⟨ws, rfl, h.symm⟩

theorem moves_of_dequeue {sched : Scheduler} {s : State n} {w : Fin n}
    (hw : s.workers w = .dequeuing) : Moves sched s (.dequeue w) (dequeue sched s w) := by
  by_cases hj : s.jobs = []
  · cases hs : s.stopping with
    | false =>
        simp only [dequeue, hj, hs, List.isEmpty_nil, Bool.not_false, Bool.and_self, if_true]
        exact .blocks w hw hj hs
    | true =>
        simp only [dequeue, hj, hs, List.isEmpty_nil, Bool.not_true, Bool.and_false,
          Bool.false_eq_true, if_false, Bool.and_self, if_true]
        exact .departs w hw hj hs
  · have hempty : s.jobs.isEmpty = false := Bool.eq_false_iff.mpr fun h =>
      hj (List.isEmpty_iff.mp h)
    simp only [dequeue, hempty, Bool.false_and, Bool.and_false, Bool.false_eq_true, if_false]
    -- All four schedulers find a job in a deque that has one.
    rcases Option.isSome_iff_exists.mp (Scheduler.getNextJob_isSome sched hj) with ⟨⟨job, rest⟩, hg⟩
    simp only [hg]
    exact .takes w job rest hw hg

theorem moves_of_step {sched : Scheduler} {s t : State n} {a : Action n}
    (h : step sched s a = some t) : Moves sched s a t := by
  cases a with
  | enqueue sub wake =>
      simp only [step, Option.ite_none_right_eq_some] at h
      rcases moves_of_enqueue h.2 with ⟨ws, hws, rfl⟩
      exact .enqueues sub wake ws h.1 hws
  | testRunning w =>
      cases hw : s.workers w <;> simp only [step, hw, reduceCtorEq, Option.some.injEq] at h
      subst h
      cases hr : s.running with
      | true => exact .enters w hw hr
      | false => exact .leaves w hw hr
  | dequeue w =>
      cases hw : s.workers w <;> simp only [step, hw, reduceCtorEq, Option.some.injEq] at h
      exact h ▸ moves_of_dequeue hw
  | wakeSpuriously w =>
      cases hw : s.workers w <;> simp only [step, hw, reduceCtorEq, Option.some.injEq] at h
      exact h ▸ .wakes w hw
  | execute w res pid uniqueId =>
      cases hw : s.workers w <;> simp only [step, hw, reduceCtorEq, Option.some.injEq] at h
      rename_i job
      subst h
      cases hp : res.preempted with
      | true => exact .preempts w job res pid uniqueId hw hp
      | false => exact .finishes w job res pid uniqueId hw hp
  | requeue w wake =>
      cases hw : s.workers w <;> simp only [step, hw, reduceCtorEq] at h
      rename_i job
      rcases moves_of_enqueue h with ⟨ws, hws, rfl⟩
      exact .requeues w job wake ws hw hws
  | callSubmitResult w =>
      cases hw : s.workers w <;> simp only [step, hw, reduceCtorEq, Option.some.injEq] at h
      exact h ▸ .files w _ _ hw
  | returnFromSubmitResult w =>
      cases hw : s.workers w <;> simp only [step, hw, reduceCtorEq, Option.some.injEq] at h
      exact h ▸ .reports w _ _ hw
  | setPromise w =>
      cases hw : s.workers w <;> simp only [step, hw, reduceCtorEq] at h
      rename_i job res
      cases hp : job.resultPromise with
      | none =>
          simp only [hp, Option.some.injEq] at h
          exact h ▸ .passes w job res hw hp
      | some p =>
          simp only [hp] at h
          split at h
          · rename_i hset
            exact Option.some.inj h ▸ .breaks w job res p hw hp hset
          · rename_i hset
            exact Option.some.inj h ▸ .pays w job res p hw hp hset
  | endIteration w =>
      cases hw : s.workers w <;> simp only [step, hw, reduceCtorEq, Option.some.injEq] at h
      exact h ▸ .ends w _ hw
  | clearRunning =>
      simp only [step, Option.ite_none_right_eq_some, Option.some.injEq] at h
      exact h.2 ▸ .clears h.1
  | stopQueue =>
      simp only [step, Option.ite_none_right_eq_some, Option.some.injEq] at h
      exact h.2 ▸ .stops h.1
  | joinWorkers =>
      simp only [step, Option.ite_none_right_eq_some, Option.some.injEq] at h
      exact h.2 ▸ .joins h.1.1 h.1.2

/-- Only an enqueueing client adds to the accepted jobs. -/
theorem accepted_of_moves {sched : Scheduler} {s t : State n} {a : Action n}
    (h : Moves sched s a t) (ha : ∀ sub wake, a ≠ .enqueue sub wake) :
    t.accepted = s.accepted := by
  cases h with
  | enqueues sub wake => exact absurd rfl (ha sub wake)
  | _ => rfl

/-- Every worker is about to enter the loop, and nothing was enqueued yet. -/
def init (n : Nat) : State n where
  jobs := []
  stopping := false
  running := true
  workers := fun _ => .atLoopHead
  stopper := .notCalled
  satisfied := []
  undefined := false
  broken := false
  accepted := []
  requeued := []
  submissions := []
  returned := []
  completed := []

end Pool

end Isolyx
