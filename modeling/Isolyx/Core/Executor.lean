import Isolyx.Core.Invocation
import Isolyx.Core.Lifecycle
import Isolyx.Library.Run

/-!
# The Executor

`Executor::execute` and `Executor::executePipeline`, with the programs they
start. A program is started inside `isolateAndRun`, with the objects that were
made for it, or on the host, by `fork` and `execvp`.

The factories are configured or null. An object that a factory makes is known
by a number, and no two have the same. What the isolator does with a command is
in `Core.Launch` and `Core.Processes`; here it starts the program or does not,
and returns some result. What the system calls of a pipeline come to is up to
the host: `pipe`, `fork` and `execvp` may fail for any of its commands. A child
of the pipeline that cannot open a redirection file goes on without it.

`exit` ends the engine, and nothing is called after it. In a pipeline of two
commands or more, the builtins are programs like any others.

## Main definitions

* `Factories`: Which factories are configured.
* `Start`: A program that was started, and how.
* `State`: The programs started so far.
* `execute`: `Executor::execute`.
* `forkStages`: The loop over the commands of a pipeline.
* `executePipeline`: `Executor::executePipeline`.
* `step`: One call of either.
-/

namespace Isolyx

namespace Executor

open Invocation (cString)
open Lifecycle (WaitStatus resultOf)

/-- Which factories the executor was given. -/
structure Factories where
  limiter : Bool
  watchdog : Bool
  secPolicy : Bool

/-- The objects `isolateAndRun` is given. -/
structure Confinement where
  limiter : Option Nat
  watchdog : Option Nat
  secPolicy : Option Nat
  deriving DecidableEq, Repr

/-- A program that was started. -/
inductive Start where
  | isolated (cmd : Command) (confinement : Confinement)
  | onHost (argv : List Bytes)
  deriving DecidableEq, Repr

structure State where
  /-- The engine process has not ended. -/
  alive : Bool
  /-- How many objects the factories have made. -/
  made : Nat
  starts : List Start
  deriving DecidableEq, Repr

/-- What `isolateAndRun` does with a command. -/
structure Isolation where
  started : Bool
  result : ExecutionResult

/-- What the system calls for the command at a position of a pipeline come to. -/
structure Host where
  pipe : Nat → Bool
  fork : Nat → Bool
  exec : Nat → Bool
  status : Nat → WaitStatus

/-- A factory makes the object with the next number, if there is a factory. -/
def make (configured : Bool) (made : Nat) : Option Nat × Nat :=
  if configured then (some made, made + 1) else (none, made)

/-- `isolateAndRun`; it starts the program of a job that has no process. -/
def isolateAndRun (s : State) (job : Job) (confinement : Confinement) (isolation : Isolation) :
    State × Option ExecutionResult :=
  (if job.pid ≤ 0 ∧ isolation.started then
    { s with starts := s.starts ++ [.isolated job.cmd confinement] } else s,
    some isolation.result)

/-- `Executor::execute`, which has no result if it does not return. -/
def execute (f : Factories) (s : State) (job : Job) (isolation : Isolation) :
    State × Option ExecutionResult :=
  if job.cmd.isEmpty then (s, some { success := true })
  else if job.cmd.executable = ascii "exit" then ({ s with alive := false }, none)
  -- `cd` changes the directory or prints a message, and succeeds
  else if job.cmd.isBuiltin then (s, some { exitCode := 0, success := true })
  else
    let (limiter, made) := make f.limiter s.made
    let (watchdog, made) := make f.watchdog made
    let (secPolicy, made) := make f.secPolicy made
    isolateAndRun { s with made := made } job ⟨limiter, watchdog, secPolicy⟩ isolation

/-- The child at a position becomes the program its first argument names;
    without arguments `execvp` is given a null pointer. -/
def child (host : Host) (i : Nat) (cmd : Command) : List Start :=
  match cmd.arguments with
  | [] => []
  | arg :: args => if host.exec i then [.onHost ((arg :: args).map cString)] else []

/-- The loop over the commands of a pipeline, from a position on: the programs
    started, and whether the loop ran to its end. -/
def forkStages (host : Host) : Nat → List Command → List Start × Bool
  | _, [] => ([], true)
  | i, cmd :: rest =>
      -- the last command needs no pipe
      if !rest.isEmpty && !host.pipe i then ([], false)
      else if !host.fork i then ([], false)
      else
        let (starts, complete) := forkStages host (i + 1) rest
        (child host i cmd ++ starts, complete)

/-- The job `executePipeline` makes of a single command. -/
def jobOf (cmd : Command) : Job := { id := 0, cmd := cmd, resultPromise := none }

/-- `Executor::executePipeline`. -/
def executePipeline (f : Factories) (s : State) (pipeline : List Command) (isolation : Isolation)
    (host : Host) : State × Option ExecutionResult :=
  match pipeline with
  | [] => (s, some { success := true })
  | [cmd] => execute f s (jobOf cmd) isolation
  | cmd :: next :: rest =>
      let (starts, complete) := forkStages host 0 (cmd :: next :: rest)
      let t := { s with starts := s.starts ++ starts }
      if !complete then (t, some { success := false })
      else if ((next :: rest).getLast (List.cons_ne_nil next rest)).isBackground then
        (t, some { success := true })
      -- the result is that of the last command
      else (t, some (resultOf (host.status (rest.length + 1))))

/-- A call of the executor. -/
inductive Call where
  | execute (job : Job) (isolation : Isolation)
  | executePipeline (pipeline : List Command) (isolation : Isolation) (host : Host)

def step (f : Factories) (s : State) (call : Call) : Option State :=
  if s.alive then
    match call with
    | .execute job isolation => some (execute f s job isolation).1
    | .executePipeline pipeline isolation host =>
        some (executePipeline f s pipeline isolation host).1
  else none

/-- Nothing was started yet. -/
def init : State where
  alive := true
  made := 0
  starts := []

end Executor

end Isolyx
