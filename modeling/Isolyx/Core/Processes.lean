import Isolyx.Core.Invocation
import Isolyx.Core.Lifecycle
import Isolyx.Core.Pool

/-!
# Jobs and their Processes

The pool with what `Executor::execute` does inside: `isolateAndRun`, which
launches the process of a job or resumes it, and next to it the table of the
engine's children in the kernel. `isolateAndRun` is given the `pid` and the
`unique_id` of the job by reference, so it writes them into the job in the
worker's hands, and they travel with it through the queue.

An action is one step of one thread: a step of the pool other than `execute`,
or a step of a worker in `execute`, which may be a system call that fails. The
kernel gives a child a pid that no unreaped child of the engine has. Only the
wait for that pid reaps it, since `reapZombies` is called nowhere. A turn of
the waiting loop that finds nothing changes nothing here, and neither do the
signals that are sent, the limiter, the watchdogs and the security policy.

`file_counter` is an `int` that wraps. The state carries a history that no step
reads: the numbers that were drawn, the launches with the number of each, the
jobs that were preempted, and the numbers whose files were collected.

## Main definitions

* `Child`: A child of the engine.
* `Call`: Where a worker is in `execute`.
* `State`: The pool, the calls, the kernel's table and the history.
* `Action`: One step of one thread.
* `step`: The transition function.
* `Moves`: Its transitions, one by one.
* `init`: The state `WorkerPool::start` leaves.
-/

namespace Isolyx

/-- The call of `execute` and its return. -/
def Pool.Action.isExecute {n : Nat} : Pool.Action n → Bool
  | .execute _ _ _ _ => true
  | _ => false

namespace Processes

open Lifecycle (WaitStatus resultOf)
open Pool (Worker setWorker)

/-- A child of the engine that was not reaped, and the job it was cloned for. -/
structure Child where
  pid : Int
  job : Nat
  deriving DecidableEq, Repr

/-- Where a worker is in `Executor::execute`. -/
inductive Call where
  /-- Not in `isolateAndRun`. -/
  | outside
  /-- The job has no process; the pipe is made. -/
  | launching
  /-- The job has a number. -/
  | numbered
  /-- The process was cloned or resumed, and the worker waits for it. -/
  | waiting
  /-- The process was reaped; the output is still to be collected. -/
  | collecting (res : ExecutionResult)
  /-- `isolateAndRun` is about to return. -/
  | returning (res : ExecutionResult)
  deriving DecidableEq, Repr

/-- What `waitpid` reports. -/
inductive Report where
  | ended (status : WaitStatus)
  | stopped
  | failed
  deriving DecidableEq, Repr

structure State (n : Nat) where
  pool : Pool.State n
  calls : Fin n → Call
  fileCounter : Int
  children : List Child
  /-- `exit` was called. -/
  exited : Bool
  numbers : List (Nat × Int)
  launched : List (Nat × Int)
  preempted : List Nat
  collected : List (Nat × Int)

inductive Action (n : Nat) where
  | pool (a : Pool.Action n)
  /-- `execute` of a command that is empty, `cd` or `exit`. -/
  | builtin (w : Fin n)
  /-- `isolateAndRun` is entered; `piped` is the outcome of `pipe`. -/
  | enter (w : Fin n) (piped : Bool)
  | number (w : Fin n)
  /-- `clone`, with the pid of the child if it succeeds. -/
  | clone (w : Fin n) (child : Option Int)
  | wait (w : Fin n) (report : Report)
  /-- `out` and `err` are what the two files hold. -/
  | collect (w : Fin n) (out err : Bytes)
  | leave (w : Fin n)

variable {n : Nat}

def setCall (s : State n) (w : Fin n) (c : Call) : State n :=
  { s with calls := Function.update s.calls w c }

/-- A write to the job in a worker's hands. -/
def setJob (s : State n) (w : Fin n) (job : Job) : State n :=
  { s with pool := setWorker s.pool w (.executing job) }

/-- `execute` returns to the worker. -/
def returnResult (sched : Scheduler) (s : State n) (w : Fin n) (job : Job)
    (res : ExecutionResult) : Option (State n) :=
  (Pool.step sched s.pool (.execute w res job.pid job.uniqueId)).map fun p =>
    { setCall s w .outside with
      pool := p
      preempted := if res.preempted then job.id :: s.preempted else s.preempted }

/-- `execute` of a command that is empty or a builtin; `exit` does not return. -/
def builtin (sched : Scheduler) (s : State n) (w : Fin n) (job : Job) : Option (State n) :=
  if job.cmd.isEmpty then returnResult sched s w job { success := true }
  else if job.cmd.executable = ascii "exit" then some { s with exited := true }
  else if job.cmd.isBuiltin then returnResult sched s w job { exitCode := 0, success := true }
  else none

/-- `isolateAndRun` up to the call of `pipe`, or to that of `kill`. -/
def enter (s : State n) (w : Fin n) (job : Job) (piped : Bool) : Option (State n) :=
  if job.cmd.isEmpty || job.cmd.isBuiltin then none
  else if job.pid ≤ 0 then some (setCall s w (if piped then .launching else .returning {}))
  -- the process exists and is sent `SIGCONT`
  else some (setCall s w .waiting)

def number (s : State n) (w : Fin n) (job : Job) : State n :=
  if job.uniqueId = 0 then
    { setCall (setJob s w { job with uniqueId := s.fileCounter }) w .numbered with
      fileCounter := int32 (s.fileCounter + 1)
      numbers := s.numbers ++ [(job.id, s.fileCounter)] }
  else setCall s w .numbered

def clone (s : State n) (w : Fin n) (job : Job) : Option Int → Option (State n)
  | none => some (setCall s w (.returning {}))
  | some pid =>
      if 0 < pid ∧ pid ∉ s.children.map Child.pid then
        some { setCall (setJob s w { job with pid := pid }) w .waiting with
          children := ⟨pid, job.id⟩ :: s.children
          launched := (job.id, job.uniqueId) :: s.launched }
      else none

/-- The call of `waitpid` that has something to report. A stop is reported for
    a job with a quantum only, and nothing but a failure if there is no child. -/
def wait (s : State n) (w : Fin n) (job : Job) : Report → Option (State n)
  | .failed => some (setCall s w (.returning {}))
  | .stopped =>
      if 0 < job.timeQuantum ∧ job.pid ∈ s.children.map Child.pid then
        some (setCall s w (.returning { preempted := true }))
      else none
  | .ended status =>
      if job.pid ∈ s.children.map Child.pid then
        some { setCall s w (.collecting (resultOf status)) with
          children := s.children.filter fun c => c.pid ≠ job.pid }
      else none

/-- The files are read under the number the job carries. -/
def collect (s : State n) (w : Fin n) (job : Job) (res : ExecutionResult) (out err : Bytes) :
    State n :=
  if 0 < job.uniqueId then
    { setCall s w (.returning { res with stdoutOut := out, stderrOut := err }) with
      collected := (job.id, job.uniqueId) :: s.collected }
  else setCall s w (.returning res)

/-- The job of a worker in `execute`, and where in it the worker is. -/
def atCall (s : State n) (w : Fin n) : Option (Job × Call) :=
  match s.pool.workers w with
  | .executing job => some (job, s.calls w)
  | _ => none

theorem atCall_eq {s : State n} {w : Fin n} {job : Job} {c : Call}
    (h : atCall s w = some (job, c)) : s.pool.workers w = .executing job ∧ s.calls w = c := by
  unfold atCall at h
  split at h
  · rename_i job' hw
    simp only [Option.some.injEq, Prod.mk.injEq] at h
    rw [hw, h.1]
    exact ⟨rfl, h.2⟩
  · simp only [reduceCtorEq] at h

def step (sched : Scheduler) (s : State n) (a : Action n) : Option (State n) :=
  if s.exited then none
  else match a with
    | .pool a =>
        if a.isExecute then none
        else (Pool.step sched s.pool a).map fun p => { s with pool := p }
    | .builtin w => match atCall s w with
        | some (job, .outside) => builtin sched s w job
        | _ => none
    | .enter w piped => match atCall s w with
        | some (job, .outside) => enter s w job piped
        | _ => none
    | .number w => match atCall s w with
        | some (job, .launching) => some (number s w job)
        | _ => none
    | .clone w child => match atCall s w with
        | some (job, .numbered) => clone s w job child
        | _ => none
    | .wait w report => match atCall s w with
        | some (job, .waiting) => wait s w job report
        | _ => none
    | .collect w out err => match atCall s w with
        | some (job, .collecting res) => some (collect s w job res out err)
        | _ => none
    | .leave w => match atCall s w with
        | some (job, .returning res) => returnResult sched s w job res
        | _ => none

/-- The transitions of `step`, one constructor for each outcome of an action. -/
inductive Moves (sched : Scheduler) (s : State n) : Action n → State n → Prop
  | pools (a : Pool.Action n) (p : Pool.State n) (ha : a.isExecute = false)
      (hp : Pool.Moves sched s.pool a p) : Moves sched s (.pool a) { s with pool := p }
  | exits (w : Fin n) (job : Job) (hw : s.pool.workers w = .executing job)
      (hc : s.calls w = .outside) : Moves sched s (.builtin w) { s with exited := true }
  | answers (w : Fin n) (job : Job) (res : ExecutionResult)
      (hw : s.pool.workers w = .executing job) (hc : s.calls w = .outside) :
      Moves sched s (.builtin w)
        { setCall s w .outside with pool := setWorker s.pool w (.finished job res) }
  | lacks (w : Fin n) (job : Job) (hw : s.pool.workers w = .executing job)
      (hc : s.calls w = .outside) (hpid : job.pid ≤ 0) :
      Moves sched s (.enter w false) (setCall s w (.returning {}))
  | launches (w : Fin n) (job : Job) (hw : s.pool.workers w = .executing job)
      (hc : s.calls w = .outside) (hpid : job.pid ≤ 0) :
      Moves sched s (.enter w true) (setCall s w .launching)
  | resumes (w : Fin n) (piped : Bool) (job : Job) (hw : s.pool.workers w = .executing job)
      (hc : s.calls w = .outside) (hpid : 0 < job.pid) :
      Moves sched s (.enter w piped) (setCall s w .waiting)
  | draws (w : Fin n) (job : Job) (hw : s.pool.workers w = .executing job)
      (hc : s.calls w = .launching) (hid : job.uniqueId = 0) :
      Moves sched s (.number w)
        { setCall (setJob s w { job with uniqueId := s.fileCounter }) w .numbered with
          fileCounter := int32 (s.fileCounter + 1)
          numbers := s.numbers ++ [(job.id, s.fileCounter)] }
  | keeps (w : Fin n) (job : Job) (hw : s.pool.workers w = .executing job)
      (hc : s.calls w = .launching) (hid : job.uniqueId ≠ 0) :
      Moves sched s (.number w) (setCall s w .numbered)
  | misses (w : Fin n) (job : Job) (hw : s.pool.workers w = .executing job)
      (hc : s.calls w = .numbered) : Moves sched s (.clone w none) (setCall s w (.returning {}))
  | clones (w : Fin n) (job : Job) (pid : Int) (hw : s.pool.workers w = .executing job)
      (hc : s.calls w = .numbered) (hpos : 0 < pid) (hnew : pid ∉ s.children.map Child.pid) :
      Moves sched s (.clone w (some pid))
        { setCall (setJob s w { job with pid := pid }) w .waiting with
          children := ⟨pid, job.id⟩ :: s.children
          launched := (job.id, job.uniqueId) :: s.launched }
  | gives (w : Fin n) (job : Job) (hw : s.pool.workers w = .executing job)
      (hc : s.calls w = .waiting) : Moves sched s (.wait w .failed) (setCall s w (.returning {}))
  | stops (w : Fin n) (job : Job) (hw : s.pool.workers w = .executing job)
      (hc : s.calls w = .waiting) :
      Moves sched s (.wait w .stopped) (setCall s w (.returning { preempted := true }))
  | reaps (w : Fin n) (status : WaitStatus) (job : Job)
      (hw : s.pool.workers w = .executing job) (hc : s.calls w = .waiting) :
      Moves sched s (.wait w (.ended status))
        { setCall s w (.collecting (resultOf status)) with
          children := s.children.filter fun c => c.pid ≠ job.pid }
  | collects (w : Fin n) (out err : Bytes) (job : Job) (res : ExecutionResult)
      (hw : s.pool.workers w = .executing job) (hc : s.calls w = .collecting res) :
      Moves sched s (.collect w out err) (collect s w job res out err)
  | preempts (w : Fin n) (job : Job) (res : ExecutionResult)
      (hw : s.pool.workers w = .executing job) (hc : s.calls w = .returning res)
      (hp : res.preempted = true) :
      Moves sched s (.leave w) { setCall s w .outside with
        pool := setWorker s.pool w (.requeueing job)
        preempted := job.id :: s.preempted }
  | finishes (w : Fin n) (job : Job) (res : ExecutionResult)
      (hw : s.pool.workers w = .executing job) (hc : s.calls w = .returning res)
      (hp : res.preempted = false) :
      Moves sched s (.leave w)
        { setCall s w .outside with pool := setWorker s.pool w (.finished job res) }

theorem returnResult_eq {sched : Scheduler} {s : State n} {w : Fin n} {job : Job}
    (hw : s.pool.workers w = .executing job) (res : ExecutionResult) :
    returnResult sched s w job res = some { setCall s w .outside with
      pool := setWorker s.pool w (if res.preempted then .requeueing job else .finished job res)
      preempted := if res.preempted then job.id :: s.preempted else s.preempted } := by
  simp only [returnResult, Pool.step, hw, Option.map_some]

theorem moves_of_step {sched : Scheduler} {s t : State n} {a : Action n}
    (h : step sched s a = some t) : Moves sched s a t := by
  unfold step at h
  rw [Option.ite_none_left_eq_some] at h
  replace h := h.2
  cases a with
  | pool a =>
      simp only [Option.ite_none_left_eq_some, Option.map_eq_some_iff] at h
      rcases h with ⟨ha, p, hp, rfl⟩
      exact .pools a p (Bool.eq_false_iff.mpr ha) (Pool.moves_of_step hp)
  | builtin w =>
      simp only at h
      split at h
      · rename_i job hat
        rcases atCall_eq hat with ⟨hw, hc⟩
        simp only [builtin, returnResult_eq hw, Bool.false_eq_true, if_false] at h
        split at h
        · exact Option.some.inj h ▸ .answers w job _ hw hc
        split at h
        · exact Option.some.inj h ▸ .exits w job hw hc
        split at h
        · exact Option.some.inj h ▸ .answers w job _ hw hc
        · simp only [reduceCtorEq] at h
      · simp only [reduceCtorEq] at h
  | enter w piped =>
      simp only at h
      split at h
      · rename_i job hat
        rcases atCall_eq hat with ⟨hw, hc⟩
        simp only [enter] at h
        split at h
        · simp only [reduceCtorEq] at h
        split at h
        · rename_i hpid
          cases piped with
          | false => exact Option.some.inj h ▸ .lacks w job hw hc hpid
          | true => exact Option.some.inj h ▸ .launches w job hw hc hpid
        · rename_i hpid
          exact Option.some.inj h ▸ .resumes w piped job hw hc (Int.not_le.mp hpid)
      · simp only [reduceCtorEq] at h
  | number w =>
      simp only at h
      split at h
      · rename_i job hat
        rcases atCall_eq hat with ⟨hw, hc⟩
        simp only [number, Option.some.injEq] at h
        split at h
        · rename_i hid
          exact h ▸ .draws w job hw hc hid
        · rename_i hid
          exact h ▸ .keeps w job hw hc hid
      · simp only [reduceCtorEq] at h
  | clone w child =>
      simp only at h
      split at h
      · rename_i job hat
        rcases atCall_eq hat with ⟨hw, hc⟩
        cases child with
        | none => exact Option.some.inj h ▸ .misses w job hw hc
        | some pid =>
            simp only [clone, Option.ite_none_right_eq_some, Option.some.injEq] at h
            exact h.2 ▸ .clones w job pid hw hc h.1.1 h.1.2
      · simp only [reduceCtorEq] at h
  | wait w report =>
      simp only at h
      split at h
      · rename_i job hat
        rcases atCall_eq hat with ⟨hw, hc⟩
        cases report with
        | failed => exact Option.some.inj h ▸ .gives w job hw hc
        | stopped =>
            simp only [wait, Option.ite_none_right_eq_some, Option.some.injEq] at h
            exact h.2 ▸ .stops w job hw hc
        | ended status =>
            simp only [wait, Option.ite_none_right_eq_some, Option.some.injEq] at h
            exact h.2 ▸ .reaps w status job hw hc
      · simp only [reduceCtorEq] at h
  | collect w out err =>
      simp only at h
      split at h
      · rename_i job res hat
        rcases atCall_eq hat with ⟨hw, hc⟩
        exact Option.some.inj h ▸ .collects w out err job res hw hc
      · simp only [reduceCtorEq] at h
  | leave w =>
      simp only at h
      split at h
      · rename_i job res hat
        rcases atCall_eq hat with ⟨hw, hc⟩
        rw [returnResult_eq hw, Option.some.injEq] at h
        subst h
        cases hp : res.preempted with
        | true => exact .preempts w job res hw hc hp
        | false => exact .finishes w job res hw hc hp
      · simp only [reduceCtorEq] at h

/-- Every worker is about to enter the loop, and nothing was launched yet. -/
def init (n : Nat) : State n where
  pool := Pool.init n
  calls := fun _ => .outside
  fileCounter := 1
  children := []
  exited := false
  numbers := []
  launched := []
  preempted := []
  collected := []

end Processes

end Isolyx
