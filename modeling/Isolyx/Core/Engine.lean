import Isolyx.Core.Invocation
import Isolyx.Core.Lifecycle
import Isolyx.Core.Pool

/-!
# The Engine

`main` with everything it starts: the shell loop on the main thread, the daemon
thread that reads the command pipe, the worker pool, and the life of every job
the workers execute. The pool and the life of a job are the models of their
own; here a worker that holds a program drives the life of that job, and what
`execute` returns to the pool is what that life came to.

Two paths lead to `handleBuiltin`. The shell keeps `cd` and `exit` for itself
and executes them on the main thread. The daemon thread enqueues whatever a
line says, and a worker that takes such a job executes it. `exit` ends the
engine on whichever thread calls it: no destructor of an object on the stack of
a thread runs, and the processes it launched live on. The other way to end is
the end of the shell's input, after which `main` stops the pool and returns.

`chdir` moves the engine as a whole. Which directory a path leads to is not
known, and the same path may lead elsewhere later, so its outcome belongs to
the action, within what the setup allows.

A job's number is its id. The state also records which jobs came by the command
pipe, and the directory the engine was in when the last burst of a job began;
no step reads either.

## Main definitions

* `Setup`: What is fixed for a run.
* `State`: The threads, the pool and the jobs.
* `handleBuiltin`: `Executor::handleBuiltin`.
* `Action`: One step of one thread or process.
* `step`: The transition function.
* `Moves`: Its transitions, one by one.
* `init`: The pool is started, and the shell is at its first prompt.
-/

namespace Isolyx

/-- A step that the worker takes within a burst. -/
def Lifecycle.Action.ofWorker : Lifecycle.Action → Bool
  | .dequeue | .clone | .applyToPid | .startWatchdog | .sync | .resume | .poll | .waitpid
  | .collect | .destroyWatchdog => true
  | _ => false

/-- A step of the process, or of another process of its sandbox. -/
def Lifecycle.Action.ofProcess : Lifecycle.Action → Bool
  | .work _ | .exits _ | .dies _ | .group _ | .continued => true
  | _ => false

/-- Such a step, or a watchdog's, is no other. -/
theorem Lifecycle.Action.ne_of_ofProcess {a b : Lifecycle.Action}
    (ha : a.ofProcess = true ∨ a = .fires) (hb : b.ofProcess = false) (hfires : b ≠ .fires) :
    a ≠ b := by
  rintro rfl
  rcases ha with ha | ha
  · exact Bool.false_ne_true (hb.symm.trans ha)
  · exact hfires ha

/-- A step of `workerLoop` apart from `execute`, or of `stop` after its flag. -/
def Pool.Action.ofLoop {n : Nat} : Pool.Action n → Bool
  | .enqueue _ _ | .execute _ _ _ _ | .clearRunning => false
  | _ => true

/-- `execute` leaves the command to `isolateAndRun`. -/
def Command.isProgram (cmd : Command) : Bool := !cmd.isEmpty && !cmd.isBuiltin

namespace Engine

open Invocation (cString)

/-- What is fixed for a run. `main` leaves the quantum of every job at zero and
    always makes a limiter and watchdogs. -/
structure Setup where
  sched : Scheduler
  quantum : Nat → Int
  elsewhere : Nat → Bytes × Bytes
  /-- What `chdir` may come to, in a directory and for a path: another
      directory, or a failure. -/
  leads : Nat → Bytes → Option Nat → Bool

def Setup.config (setup : Setup) (i : Nat) : Lifecycle.Config where
  limiter := true
  watchdog := true
  timeQuantum := setup.quantum i
  elsewhere := setup.elsewhere

/-- Where the main thread is. -/
inductive Main where
  | atPrompt
  /-- In `future.wait()`. -/
  | awaiting (promise : Nat)
  /-- In `worker_pool.stop()`. -/
  | stopping
  deriving DecidableEq, Repr

structure State (n : Nat) where
  /-- The engine process has not ended. -/
  alive : Bool
  main : Main
  pool : Pool.State n
  jobs : Nat → Lifecycle.State
  cwd : Nat
  nextJobId : Nat
  remote : List Nat
  begun : Nat → Nat

inductive Action (n : Nat) where
  /-- `getline` gives the daemon thread a line. -/
  | daemonLine (line : Bytes) (wake : Option (Fin n))
  /-- `getline` gives the shell a line. -/
  | shellLine (line : Bytes) (outcome : Option Nat) (wake : Option (Fin n))
  | futureReady
  | shellEof
  | mainReturns
  | pool (a : Pool.Action n)
  /-- `execute` is called with a command that is no program. -/
  | builtin (w : Fin n) (outcome : Option Nat)
  /-- A step within a burst. -/
  | burst (w : Fin n) (a : Lifecycle.Action)
  /-- The limiter is destroyed and `execute` returns. -/
  | endBurst (w : Fin n) (pid uniqueId : Int)
  /-- A step of a job's process, or of a watchdog's thread. -/
  | process (i : Nat) (a : Lifecycle.Action)

variable {n : Nat}

/-- A job with the next id and a promise of its own. -/
def submission (setup : Setup) (s : State n) (cmd : Command) : Pool.Submission where
  id := s.nextJobId
  cmd := cmd
  resultPromise := some s.nextJobId
  timeQuantum := setup.quantum s.nextJobId

/-- `job_queue.enqueue` of such a job. -/
def submit (setup : Setup) (s : State n) (cmd : Command) (wake : Option (Fin n)) :
    Option (State n) :=
  (Pool.step setup.sched s.pool (.enqueue (submission setup s cmd) wake)).map fun p =>
    { s with pool := p, nextJobId := s.nextJobId + 1 }

/-- A `chdir` that succeeds. -/
def enter (s : State n) (dir : Nat) : State n :=
  { s with cwd := dir, jobs := fun i => { s.jobs i with cwd := dir } }

/-- `Executor::handleBuiltin`; it always returns true, if it returns. -/
def handleBuiltin (setup : Setup) (s : State n) (cmd : Command) (outcome : Option Nat) :
    Option (State n) :=
  if cmd.executable = ascii "exit" then some { s with alive := false }
  else if cmd.executable = ascii "cd" then
    -- the shell's parser and a job's `args` both put the path second
    match cmd.arguments[1]? with
    | none => some s
    | some path =>
        if setup.leads s.cwd (cString path) outcome then
          some (match outcome with
            | none => s
            | some dir => enter s dir)
        else none
  else some s

/-- The loop of the daemon thread. -/
def daemonLine (setup : Setup) (s : State n) (line : Bytes) (wake : Option (Fin n)) :
    Option (State n) :=
  if line.isEmpty then some s
  else match CommandLine.parseJob line with
    | none => some s
    | some cmd => (submit setup s cmd wake).map fun t =>
        { t with remote := s.nextJobId :: t.remote }

/-- The loop of the shell. -/
def shellLine (setup : Setup) (s : State n) (line : Bytes) (outcome : Option Nat)
    (wake : Option (Fin n)) : Option (State n) :=
  let cmd := Parser.parseLine line
  if cmd.isEmpty then some s
  else if cmd.isBuiltin then handleBuiltin setup s cmd outcome
  else (submit setup s cmd wake).map fun t =>
    { t with main := if cmd.isBackground then .atPrompt else .awaiting s.nextJobId }

/-- `execute` returns to the worker. -/
def returnResult (setup : Setup) (s : State n) (w : Fin n) (res : ExecutionResult)
    (pid uniqueId : Int) : Option (State n) :=
  (Pool.step setup.sched s.pool (.execute w res pid uniqueId)).map fun p => { s with pool := p }

/-- `Executor::execute` of an empty command, of `cd` or of `exit`. -/
def builtin (setup : Setup) (s : State n) (w : Fin n) (job : Job) (outcome : Option Nat) :
    Option (State n) :=
  if job.cmd.isEmpty then returnResult setup s w { success := true } job.pid job.uniqueId
  else if job.cmd.isBuiltin then
    (handleBuiltin setup s job.cmd outcome).bind fun t =>
      -- `exit` does not return
      if t.alive then
        returnResult setup t w { exitCode := 0, success := true } job.pid job.uniqueId
      else some t
  else none

/-- One step in the life of a job. -/
def live (setup : Setup) (s : State n) (i : Nat) (a : Lifecycle.Action) : Option (State n) :=
  (Lifecycle.step (setup.config i) (s.jobs i) a).map fun j =>
    { s with jobs := Function.update s.jobs i j }

/-- One step of a burst of the job a worker executes. -/
def burst (setup : Setup) (s : State n) (i : Nat) (a : Lifecycle.Action) : Option (State n) :=
  (live setup s i a).map fun t =>
    { t with begun := if a = .dequeue then Function.update t.begun i s.cwd else t.begun }

/-- The end of a burst, with what `isolateAndRun` left in the job. -/
def endBurst (setup : Setup) (s : State n) (w : Fin n) (i : Nat) (pid uniqueId : Int) :
    Option (State n) :=
  match (s.jobs i).phase with
  | .unwatched res => (live setup s i .destroyLimiter).bind fun t =>
      returnResult setup t w res pid uniqueId
  | _ => none

/-- The program a worker executes. -/
def program? (s : State n) (w : Fin n) : Option Job :=
  match s.pool.workers w with
  | .executing job => if job.cmd.isProgram then some job else none
  | _ => none

/-- What an action does while the threads it belongs to are there. -/
def act (setup : Setup) (s : State n) : Action n → Option (State n)
  | .daemonLine line wake => daemonLine setup s line wake
  | .shellLine line outcome wake => match s.main with
      | .atPrompt => shellLine setup s line outcome wake
      | _ => none
  | .futureReady => match s.main with
      | .awaiting p => if p ∈ s.pool.satisfied then some { s with main := .atPrompt } else none
      | _ => none
  | .shellEof => match s.main with
      | .atPrompt => (Pool.step setup.sched s.pool .clearRunning).map fun p =>
          { s with pool := p, main := .stopping }
      | _ => none
  | .mainReturns =>
      if s.main = .stopping ∧ s.pool.stopper = .returned then some { s with alive := false }
      else none
  | .pool a =>
      if a.ofLoop then (Pool.step setup.sched s.pool a).map fun p => { s with pool := p }
      else none
  | .builtin w outcome => match s.pool.workers w with
      | .executing job => builtin setup s w job outcome
      | _ => none
  | .burst w a =>
      if a.ofWorker then (program? s w).bind fun job => burst setup s job.id a else none
  | .endBurst w pid uniqueId => (program? s w).bind fun job =>
      endBurst setup s w job.id pid uniqueId
  | .process i a => if a.ofProcess || a = .fires then live setup s i a else none

/-- The step is taken by no thread of the engine. -/
def Action.ofProcess : Action n → Bool
  | .process _ a => a.ofProcess
  | _ => false

def step (setup : Setup) (s : State n) (a : Action n) : Option (State n) :=
  -- the processes outlive the engine, its threads do not
  if s.alive || a.ofProcess then act setup s a else none

/-- What `handleBuiltin` does, one constructor for each outcome. -/
inductive Handles (setup : Setup) (s : State n) (cmd : Command) : State n → Prop
  | exits (hc : cmd.executable = ascii "exit") : Handles setup s cmd { s with alive := false }
  | stays (hc : cmd.executable ≠ ascii "exit") : Handles setup s cmd s
  | enters (path : Bytes) (dir : Nat) (hc : cmd.executable = ascii "cd")
      (hpath : cmd.arguments[1]? = some path)
      (hleads : setup.leads s.cwd (cString path) (some dir) = true) :
      Handles setup s cmd (enter s dir)

/-- The transitions of `step`, by what becomes of the threads, the pool and the
    jobs. -/
inductive Moves (setup : Setup) (s : State n) : Action n → State n → Prop
  | skips (line : Bytes) (wake : Option (Fin n))
      (hline : line = [] ∨ CommandLine.parseJob line = none) :
      Moves setup s (.daemonLine line wake) s
  | accepts (line : Bytes) (wake : Option (Fin n)) (cmd : Command) (t : State n)
      (hline : CommandLine.parseJob line = some cmd) (hsub : submit setup s cmd wake = some t) :
      Moves setup s (.daemonLine line wake) { t with remote := s.nextJobId :: t.remote }
  | ignores (line : Bytes) (outcome : Option Nat) (wake : Option (Fin n))
      (hc : (Parser.parseLine line).isEmpty = true) :
      Moves setup s (.shellLine line outcome wake) s
  | interprets (line : Bytes) (outcome : Option Nat) (wake : Option (Fin n)) (t : State n)
      (hc : (Parser.parseLine line).isBuiltin = true)
      (hh : Handles setup s (Parser.parseLine line) t) :
      Moves setup s (.shellLine line outcome wake) t
  | submits (line : Bytes) (outcome : Option Nat) (wake : Option (Fin n)) (main : Main)
      (t : State n) (hc : (Parser.parseLine line).isProgram = true)
      (hsub : submit setup s (Parser.parseLine line) wake = some t) :
      Moves setup s (.shellLine line outcome wake) { t with main := main }
  | resumes : Moves setup s .futureReady { s with main := .atPrompt }
  | stops (p : Pool.State n) (hpool : Pool.step setup.sched s.pool .clearRunning = some p) :
      Moves setup s .shellEof { s with pool := p, main := .stopping }
  | returns (hstopper : s.pool.stopper = .returned) :
      Moves setup s .mainReturns { s with alive := false }
  | loops (a : Pool.Action n) (p : Pool.State n) (ha : a.ofLoop = true)
      (hpool : Pool.step setup.sched s.pool a = some p) :
      Moves setup s (.pool a) { s with pool := p }
  | executes (w : Fin n) (outcome : Option Nat) (job : Job) (res : ExecutionResult)
      (t u : State n) (hw : s.pool.workers w = .executing job) (hc : job.cmd.isProgram = false)
      (hh : Handles setup s job.cmd t) (ht : t.alive = true)
      (hret : returnResult setup t w res job.pid job.uniqueId = some u) :
      Moves setup s (.builtin w outcome) u
  | quits (w : Fin n) (outcome : Option Nat) (job : Job)
      (hw : s.pool.workers w = .executing job) (hc : job.cmd.executable = ascii "exit") :
      Moves setup s (.builtin w outcome) { s with alive := false }
  | bursts (w : Fin n) (a : Lifecycle.Action) (job : Job) (t : State n)
      (hw : s.pool.workers w = .executing job) (hc : job.cmd.isProgram = true)
      (ha : a.ofWorker = true) (hb : burst setup s job.id a = some t) :
      Moves setup s (.burst w a) t
  | ends (w : Fin n) (pid uniqueId : Int) (job : Job) (res : ExecutionResult) (t u : State n)
      (hw : s.pool.workers w = .executing job) (hp : (s.jobs job.id).phase = .unwatched res)
      (hlive : live setup s job.id .destroyLimiter = some t)
      (hret : returnResult setup t w res pid uniqueId = some u) :
      Moves setup s (.endBurst w pid uniqueId) u
  | lives (i : Nat) (a : Lifecycle.Action) (t : State n)
      (ha : a.ofProcess = true ∨ a = .fires ∧ s.alive = true)
      (hlive : live setup s i a = some t) : Moves setup s (.process i a) t

theorem handles_of_handleBuiltin {setup : Setup} {s t : State n} {cmd : Command}
    {outcome : Option Nat} (h : handleBuiltin setup s cmd outcome = some t) :
    Handles setup s cmd t := by
  unfold handleBuiltin at h
  by_cases hexit : cmd.executable = ascii "exit"
  · rw [if_pos hexit, Option.some.injEq] at h
    exact h ▸ .exits hexit
  rw [if_neg hexit] at h
  by_cases hcd : cmd.executable = ascii "cd"
  · rw [if_pos hcd] at h
    cases hpath : cmd.arguments[1]? with
    | none =>
        rw [hpath, Option.some.injEq] at h
        exact h ▸ .stays hexit
    | some path =>
        rw [hpath, Option.ite_none_right_eq_some, Option.some.injEq] at h
        rcases h with ⟨hleads, rfl⟩
        cases outcome with
        | none => exact .stays hexit
        | some dir => exact .enters path dir hcd hpath hleads
  · rw [if_neg hcd, Option.some.injEq] at h
    exact h ▸ .stays hexit

theorem program?_eq_some {s : State n} {w : Fin n} {job : Job} :
    program? s w = some job ↔ s.pool.workers w = .executing job ∧ job.cmd.isProgram = true := by
  cases hw : s.pool.workers w <;> simp only [program?, hw, reduceCtorEq, false_and]
  rename_i held
  rw [Option.ite_none_right_eq_some, Option.some.injEq, Pool.Worker.executing.injEq]
  constructor
  · rintro ⟨hc, rfl⟩
    exact ⟨rfl, hc⟩
  · rintro ⟨rfl, hc⟩
    exact ⟨hc, rfl⟩

theorem moves_of_step {setup : Setup} {s t : State n} {a : Action n}
    (h : step setup s a = some t) : Moves setup s a t := by
  rw [step, Option.ite_none_right_eq_some] at h
  rcases h with ⟨halive, h⟩
  cases a with
  | daemonLine line wake =>
      rw [act, daemonLine] at h
      split at h
      · rename_i hempty
        exact Option.some.inj h ▸ .skips line wake (.inl (List.isEmpty_iff.mp hempty))
      · cases hline : CommandLine.parseJob line with
        | none =>
            rw [hline, Option.some.injEq] at h
            exact h ▸ .skips line wake (.inr hline)
        | some cmd =>
            rw [hline, Option.map_eq_some_iff] at h
            rcases h with ⟨u, hsub, rfl⟩
            exact .accepts line wake cmd u hline hsub
  | shellLine line outcome wake =>
      cases hmain : s.main <;> simp only [act, hmain, reduceCtorEq] at h
      rw [shellLine] at h
      split at h
      · rename_i hempty
        exact Option.some.inj h ▸ .ignores line outcome wake hempty
      rename_i hempty
      split at h
      · rename_i hbuiltin
        exact .interprets line outcome wake t hbuiltin (handles_of_handleBuiltin h)
      · rename_i hbuiltin
        rw [Option.map_eq_some_iff] at h
        rcases h with ⟨u, hsub, rfl⟩
        refine .submits line outcome wake _ u ?_ hsub
        simp only [Command.isProgram, hempty, hbuiltin, Bool.not_false, Bool.and_self]
  | futureReady =>
      cases hmain : s.main <;> simp only [act, hmain, reduceCtorEq] at h
      rw [Option.ite_none_right_eq_some, Option.some.injEq] at h
      exact h.2 ▸ .resumes
  | shellEof =>
      cases hmain : s.main <;> simp only [act, hmain, reduceCtorEq] at h
      rw [Option.map_eq_some_iff] at h
      rcases h with ⟨p, hpool, rfl⟩
      exact .stops p hpool
  | mainReturns =>
      rw [act, Option.ite_none_right_eq_some, Option.some.injEq] at h
      exact h.2 ▸ .returns h.1.2
  | pool a =>
      rw [act, Option.ite_none_right_eq_some, Option.map_eq_some_iff] at h
      rcases h with ⟨ha, p, hpool, rfl⟩
      exact .loops a p ha hpool
  | builtin w outcome =>
      cases hw : s.pool.workers w <;> simp only [act, hw, reduceCtorEq] at h
      rename_i job
      rw [builtin] at h
      split at h
      · rename_i hempty
        have hc : job.cmd.isProgram = false := by
          rw [Command.isProgram, hempty, Bool.not_true, Bool.false_and]
        have hexit : job.cmd.executable ≠ ascii "exit" := by
          intro heq
          rw [Command.isEmpty, heq] at hempty
          exact absurd hempty (by decide)
        simp only [Action.ofProcess, Bool.or_false] at halive
        exact .executes w outcome job _ s t hw hc (.stays hexit) halive h
      rw [Option.ite_none_right_eq_some, Option.bind_eq_some_iff] at h
      rcases h with ⟨hbuiltin, u, hh, h⟩
      have hc : job.cmd.isProgram = false := by
        rw [Command.isProgram, hbuiltin, Bool.not_true, Bool.and_false]
      have hhandles := handles_of_handleBuiltin hh
      simp only [Action.ofProcess, Bool.or_false] at halive
      split at h
      · rename_i ht
        exact .executes w outcome job _ u t hw hc hhandles ht h
      · rename_i hdead
        rw [Option.some.injEq] at h
        subst h
        cases hhandles with
        | exits hexit => exact .quits w outcome job hw hexit
        -- the other outcomes leave the engine as alive as it was
        | stays => exact absurd halive hdead
        | enters path dir hcd hpath hleads => exact absurd halive hdead
  | burst w a =>
      rw [act, Option.ite_none_right_eq_some, Option.bind_eq_some_iff] at h
      rcases h with ⟨ha, job, hprog, hb⟩
      rcases program?_eq_some.mp hprog with ⟨hw, hc⟩
      exact .bursts w a job t hw hc ha hb
  | endBurst w pid uniqueId =>
      rw [act, Option.bind_eq_some_iff] at h
      rcases h with ⟨job, hprog, h⟩
      cases hp : (s.jobs job.id).phase <;> simp only [endBurst, hp, reduceCtorEq] at h
      rename_i res
      rw [Option.bind_eq_some_iff] at h
      rcases h with ⟨u, hlive, hret⟩
      exact .ends w pid uniqueId job res u t (program?_eq_some.mp hprog).1 hp hlive hret
  | process i a =>
      rw [act, Option.ite_none_right_eq_some] at h
      refine .lives i a t ?_ h.2
      by_cases ha : a.ofProcess = true
      · exact .inl ha
      · simp only [Action.ofProcess, ha, Bool.or_false, Bool.false_or, decide_eq_true_eq]
          at halive h
        exact .inr ⟨h.1, halive⟩

/-- Once the engine has ended, only processes take steps. -/
theorem alive_or_ofProcess {setup : Setup} {s t : State n} {a : Action n}
    (h : step setup s a = some t) : s.alive = true ∨ a.ofProcess = true := by
  rw [step, Option.ite_none_right_eq_some, Bool.or_eq_true] at h
  exact h.1

/-! ## What a step does to the pool and to a job -/

theorem submit_eq_some {setup : Setup} {s t : State n} {cmd : Command} {wake : Option (Fin n)}
    (h : submit setup s cmd wake = some t) :
    ∃ p, Pool.step setup.sched s.pool (.enqueue (submission setup s cmd) wake) = some p ∧
      t = { s with pool := p, nextJobId := s.nextJobId + 1 } := by
  rw [submit, Option.map_eq_some_iff] at h
  rcases h with ⟨p, hpool, rfl⟩
  exact ⟨p, hpool, rfl⟩

theorem returnResult_eq_some {setup : Setup} {s t : State n} {w : Fin n} {res : ExecutionResult}
    {pid uniqueId : Int} (h : returnResult setup s w res pid uniqueId = some t) :
    ∃ p, Pool.step setup.sched s.pool (.execute w res pid uniqueId) = some p ∧
      t = { s with pool := p } := by
  rw [returnResult, Option.map_eq_some_iff] at h
  rcases h with ⟨p, hpool, rfl⟩
  exact ⟨p, hpool, rfl⟩

theorem live_eq_some {setup : Setup} {s t : State n} {i : Nat} {a : Lifecycle.Action}
    (h : live setup s i a = some t) :
    ∃ j, Lifecycle.step (setup.config i) (s.jobs i) a = some j ∧
      t = { s with jobs := Function.update s.jobs i j } := by
  rw [live, Option.map_eq_some_iff] at h
  rcases h with ⟨j, hj, rfl⟩
  exact ⟨j, hj, rfl⟩

theorem burst_eq_some {setup : Setup} {s t : State n} {i : Nat} {a : Lifecycle.Action}
    (h : burst setup s i a = some t) :
    ∃ j, Lifecycle.step (setup.config i) (s.jobs i) a = some j ∧
      t = { s with
        jobs := Function.update s.jobs i j
        begun := if a = .dequeue then Function.update s.begun i s.cwd else s.begun } := by
  rw [burst, Option.map_eq_some_iff] at h
  rcases h with ⟨u, hlive, rfl⟩
  rcases live_eq_some hlive with ⟨j, hj, rfl⟩
  exact ⟨j, hj, rfl⟩

theorem Handles.pool_eq {setup : Setup} {s t : State n} {cmd : Command}
    (h : Handles setup s cmd t) : t.pool = s.pool := by
  cases h <;> rfl

/-- To the pool, a step of the engine is one step of the pool, or none. -/
theorem pool_of_step {setup : Setup} {s t : State n} {a : Action n}
    (h : step setup s a = some t) :
    t.pool = s.pool ∨ ∃ b, Pool.step setup.sched s.pool b = some t.pool := by
  cases moves_of_step h with
  | skips | ignores | resumes | returns | quits => exact .inl rfl
  | accepts line wake cmd u hline hsub =>
      rcases submit_eq_some hsub with ⟨p, hpool, rfl⟩
      exact .inr ⟨_, hpool⟩
  | submits line outcome wake cmd main u hsub =>
      rcases submit_eq_some hsub with ⟨p, hpool, rfl⟩
      exact .inr ⟨_, hpool⟩
  | interprets line outcome wake t hmain hh => exact .inl hh.pool_eq
  | stops p hpool => exact .inr ⟨_, hpool⟩
  | loops a p ha hpool => exact .inr ⟨_, hpool⟩
  | executes w outcome job res u v hw hc hh ht hret =>
      rcases returnResult_eq_some hret with ⟨p, hpool, rfl⟩
      exact .inr ⟨_, hh.pool_eq ▸ hpool⟩
  | bursts w a job u hw hc ha hb =>
      rcases burst_eq_some hb with ⟨j, -, rfl⟩
      exact .inl rfl
  | ends w pid uniqueId job res u v hw hp hlive hret =>
      rcases live_eq_some hlive with ⟨j, -, rfl⟩
      rcases returnResult_eq_some hret with ⟨p, hpool, rfl⟩
      exact .inr ⟨_, hpool⟩
  | lives i a u ha hlive =>
      rcases live_eq_some hlive with ⟨j, -, rfl⟩
      exact .inl rfl

/-- What a job is changed to where the jobs are updated at one number. -/
theorem updated_of_live {cfg : Lifecycle.Config} {jobs : Nat → Lifecycle.State} {i : Nat}
    {a : Lifecycle.Action} {j : Lifecycle.State}
    (hj : Lifecycle.step cfg (jobs i) a = some j) (k : Nat) :
    Function.update jobs i j k = jobs k ∨
      k = i ∧ Lifecycle.step cfg (jobs k) a = some (Function.update jobs i j k) := by
  by_cases hk : k = i
  · subst hk
    rw [Function.update_self]
    exact .inr ⟨rfl, hj⟩
  · exact .inl (Function.update_of_ne hk j jobs)

/-- To a job, a step of the engine is one step of its life, or none. -/
theorem jobs_of_step {setup : Setup} {s t : State n} {a : Action n}
    (h : step setup s a = some t) (k : Nat) :
    t.jobs k = s.jobs k ∨
      ∃ b, Lifecycle.step (setup.config k) (s.jobs k) b = some (t.jobs k) := by
  have hhandles : ∀ {cmd : Command} {u : State n}, Handles setup s cmd u → u.jobs k = s.jobs k ∨
      ∃ b, Lifecycle.step (setup.config k) (s.jobs k) b = some (u.jobs k) := by
    intro cmd u hh
    cases hh with
    | exits | stays => exact .inl rfl
    | enters path dir => exact .inr ⟨.cd dir, rfl⟩
  have hlives : ∀ {i : Nat} {b : Lifecycle.Action} {j : Lifecycle.State},
      Lifecycle.step (setup.config i) (s.jobs i) b = some j →
      Function.update s.jobs i j k = s.jobs k ∨
        ∃ b, Lifecycle.step (setup.config k) (s.jobs k) b =
          some (Function.update s.jobs i j k) := by
    intro i b j hj
    rcases updated_of_live hj k with hk | ⟨rfl, hk⟩
    · exact .inl hk
    · exact .inr ⟨b, hk⟩
  cases moves_of_step h with
  | skips | ignores | resumes | returns | quits | stops | loops => exact .inl rfl
  | accepts line wake cmd u hline hsub =>
      rcases submit_eq_some hsub with ⟨p, -, rfl⟩
      exact .inl rfl
  | submits line outcome wake cmd main u hsub =>
      rcases submit_eq_some hsub with ⟨p, -, rfl⟩
      exact .inl rfl
  | interprets line outcome wake t hmain hh => exact hhandles hh
  | executes w outcome job res u v hw hc hh ht hret =>
      rcases returnResult_eq_some hret with ⟨p, -, rfl⟩
      have hu := hhandles hh
      exact hu
  | bursts w a job u hw hc ha hb =>
      rcases burst_eq_some hb with ⟨j, hj, rfl⟩
      exact hlives hj
  | ends w pid uniqueId job res u v hw hp hlive hret =>
      rcases live_eq_some hlive with ⟨j, hj, rfl⟩
      rcases returnResult_eq_some hret with ⟨p, -, rfl⟩
      exact hlives hj
  | lives i a u ha hlive =>
      rcases live_eq_some hlive with ⟨j, hj, rfl⟩
      exact hlives hj

/-- The pool is started, and the shell is at its first prompt. -/
def init (n : Nat) (dir : Nat) : State n where
  alive := true
  main := .atPrompt
  pool := Pool.init n
  jobs := fun _ => Lifecycle.init dir
  cwd := dir
  nextJobId := 1
  remote := []
  begun := fun _ => dir

end Engine

end Isolyx
