import Mathlib.Tactic.Common

/-!
# Commands, Jobs and Results

The data the engine passes around: what a shell line or a line of the command
pipe becomes, the job a worker carries, what an execution returns and what the
observers are shown.

A `std::string` is a list of bytes, since nothing in the engine gives it an
encoding. An `int` is an integer; where its width matters the definition that
uses it says so. A promise is named by a number standing for the shared
pointer, so two jobs hold one promise exactly when they hold one number.

## Main definitions

* `Command`: A parsed command.
* `Job`: A command on its way through the queue.
* `ExecutionResult`: What an execution returns to the worker.
* `JobResult`: What the observers are shown.
* `jobResult`: The result a worker submits for a finished job.
* `promiseValue`: What the promise of a finished job is set to.
-/

namespace Isolyx

/-- The contents of a `std::string`. -/
abbrev Bytes := List UInt8

/-- The bytes of an ASCII literal of the source. -/
def ascii (s : String) : Bytes := s.toList.map fun c => UInt8.ofNat c.toNat

structure Command where
  executable : Bytes := []
  arguments : List Bytes := []
  isBackground : Bool := false
  redirectInput : Bytes := []
  redirectOutput : Bytes := []
  deriving DecidableEq, Repr

/-- `Command::isEmpty`. -/
def Command.isEmpty (c : Command) : Bool := c.executable.isEmpty

/-- The commands `Executor::execute` handles itself. -/
def Command.isBuiltin (cmd : Command) : Bool :=
  cmd.executable = ascii "cd" || cmd.executable = ascii "exit"

structure Job where
  id : Nat
  cmd : Command
  resultPromise : Option Nat
  priority : Int := 0
  pid : Int := -1
  timeQuantum : Int := 0
  elapsedBursts : Int := 0
  uniqueId : Int := 0
  deriving DecidableEq, Repr

structure ExecutionResult where
  exitCode : Int := -1
  termSignal : Int := 0
  success : Bool := false
  preempted : Bool := false
  stdoutOut : Bytes := []
  stderrOut : Bytes := []
  deriving DecidableEq, Repr

inductive Verdict where
  | success
  | timeout
  | seccompViolation
  | killed
  | failed
  deriving DecidableEq, Repr

/-- The text a verdict is shown as. -/
def Verdict.text : Verdict → Bytes
  | .success => ascii "SUCCESS"
  | .timeout => ascii "TIMEOUT"
  | .seccompViolation => ascii "SECCOMP_VIOLATION"
  | .killed => ascii "KILLED"
  | .failed => ascii "FAILED"

structure JobResult where
  jobId : Nat
  exitCode : Int
  termSignal : Int
  verdict : Verdict
  commandLine : Bytes
  stdoutOut : Bytes
  stderrOut : Bytes
  deriving DecidableEq, Repr

/-- The verdict `workerLoop` gives a final outcome. -/
def verdictOf (r : ExecutionResult) : Verdict :=
  if r.success then .success
  else if r.termSignal = 9 then .timeout
  else if r.termSignal = 31 then .seccompViolation
  else if r.termSignal ≠ 0 then .killed
  else .failed

/-- The result `workerLoop` submits for a job whose execution was final. -/
def jobResult (job : Job) (r : ExecutionResult) : JobResult where
  jobId := job.id
  exitCode := r.exitCode
  termSignal := r.termSignal
  verdict := verdictOf r
  commandLine := job.cmd.executable
  stdoutOut := r.stdoutOut
  stderrOut := r.stderrOut

/-- The value `workerLoop` gives the promise of a job whose execution was final. -/
def promiseValue (r : ExecutionResult) : Int := if r.success then 0 else 1

end Isolyx
