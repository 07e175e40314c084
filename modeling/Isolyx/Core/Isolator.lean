import Isolyx.Core.Executor
import Isolyx.Core.Launch
import Isolyx.Core.Scheduler
import Isolyx.Library.Descriptors

/-!
# One Call of the Isolator

`LinuxNamespaceIsolator::isolateAndRun` from its call to its return, with an
oracle for its system calls: what it opens and closes, the process it starts or
resumes, the watchdog's threads, the two output files, and the result it
returns. Each of its early returns is where the source has it.

The system calls are those of `Core.Launch`, and the host says of each whether
it succeeds. What becomes of the process is in the reports that the calls of
`waitpid` make one after the other; without a quantum the call blocks until
there is something final to report. A `waitpid` may fail because the process is
not there any more, reaped by someone else, or for another reason. The signals
that the call sends are in `Core.Lifecycle`, and what it prints is left out.

The process runs its program, or `child_entry` gives up and returns −1, or it
is killed before the one or the other. What it leaves at a path of its outputs
can be opened or not, read to an end or not, and unlinked or not; which objects
these are is in `Core.Collection`.

A call that has not returned has no result here.

## Main definitions

* `Ending`: How a job's process ends.
* `Report`: What a call of `waitpid` reports.
* `Leftover`: What is at a path of the outputs.
* `Host`: What the system calls come to.
* `launch`: The branch that starts a process.
* `wait`: The wait for it, with and without a quantum.
* `collect`: What follows the end of the process.
* `isolateAndRun`: The whole call.
-/

namespace Isolyx

namespace Isolator

open Descriptors (Table)
open Launch (OsStep)
open Lifecycle (WaitStatus resultOf)

/-- What a descriptor of the engine refers to. -/
inductive Desc where
  /-- Open since before the call. -/
  | prior (file : Nat)
  | syncRead
  | syncWrite
  /-- A file below the directory of the process in `/proc`. -/
  | procFile (opens : OsStep)
  | output
  deriving DecidableEq, Repr

/-- How a job's process ends. -/
inductive Ending where
  /-- `execvp` succeeded, and the program ended. -/
  | program (status : WaitStatus)
  /-- `child_entry` returned −1. -/
  | gaveUp
  /-- A signal came before the one or the other. -/
  | killed (sig : Nat)
  deriving DecidableEq, Repr

/-- What is reported of it. -/
def Ending.status : Ending → WaitStatus
  | program status => status
  | gaveUp => .exited 255
  | killed sig => .signaled sig

/-- What a call of `waitpid` reports; `gone` says that the process was reaped
    by someone else. -/
inductive Report where
  | nothing
  | ended (ending : Ending)
  | stopped
  | failed (gone : Bool)
  deriving DecidableEq, Repr

/-- What opening a path and reading it comes to. -/
inductive Opening where
  | fails
  | reads (content : Bytes)
  /-- The `open` or a `read` does not return, or there is no last one. -/
  | hangs
  deriving DecidableEq, Repr

/-- What is at a path of the outputs. -/
inductive Leftover where
  | absent
  | present (opening : Opening) (unlinks : Bool)
  deriving DecidableEq, Repr

structure State where
  /-- The engine's descriptors. -/
  table : Table Desc
  /-- The processes the call has started or resumed and not reaped. -/
  children : List Int
  /-- The threads of the watchdog. -/
  threads : Nat
  fileCounter : Int
  out : Leftover
  err : Leftover

/-- What the system calls come to. -/
structure Host where
  ok : OsStep → Bool
  /-- The pid of the new process. -/
  pid : Int
  reports : List Report

/-- A file is opened, written and closed, or cannot be opened. -/
def writeFile (host : Host) (opens : OsStep) (t : Table Desc) : Table Desc :=
  if host.ok opens then (t.insert (.procFile opens)).close t.free else t

/-- The branch that starts a process, and whether there is one to wait for.
    `members` is how many watchdogs the composite one has. -/
def launch (members : Nat) (host : Host) (job : Job) (s : State) : State × Job × Bool :=
  if !host.ok .pipe then (s, job, false)
  else
    let readFd := s.table.free
    let t := s.table.insert .syncRead
    let writeFd := t.free
    let t := t.insert .syncWrite
    let (uniqueId, fileCounter) :=
      if job.uniqueId = 0 then (s.fileCounter, int32 (s.fileCounter + 1))
      else (job.uniqueId, s.fileCounter)
    if !host.ok .clone then
      ({ s with table := t, fileCounter := fileCounter }, { job with uniqueId := uniqueId }, false)
    else
      let t := t.close readFd
      let t := writeFile host .openUidMap t
      let t := writeFile host .openSetgroups t
      let t := writeFile host .openGidMap t
      ({ s with
          table := t.close writeFd
          children := host.pid :: s.children
          threads := members
          fileCounter := fileCounter },
        { job with pid := host.pid, uniqueId := uniqueId }, true)

/-- The loop over `waitpid` with `WNOHANG`: a turn with nothing to report sleeps,
    or stops the group, and tries again. -/
def poll : List Report → Option Report
  | [] => none
  | .nothing :: rest => poll rest
  | report :: _ => some report

/-- The call of `waitpid` that blocks, which reports no stop. -/
def block : List Report → Option Report
  | [] => none
  | .nothing :: rest | .stopped :: rest => block rest
  | report :: _ => some report

def wait (timeQuantum : Int) (reports : List Report) : Option Report :=
  if 0 < timeQuantum then poll reports else block reports

/-- `read_and_delete`, which does not return if the reading does not end. -/
def readAndDelete (t : Table Desc) : Leftover → Option (Table Desc × Leftover × Bytes)
  | .absent => some (t, .absent, [])
  | .present .fails unlinks => some (t, .present .fails unlinks, [])
  | .present .hangs _ => none
  | .present (.reads content) unlinks =>
      some ((t.insert .output).close t.free,
        if unlinks then .absent else .present (.reads content) unlinks, content)

/-- What follows the end of the process. -/
def collect (s : State) (job : Job) (result : ExecutionResult) :
    Option (State × Job × ExecutionResult) :=
  -- `watchdog->stop()`
  let s := { s with threads := 0 }
  if 0 < job.uniqueId then
    (readAndDelete s.table s.out).bind fun (t, out, stdoutOut) =>
      (readAndDelete t s.err).map fun (t, err, stderrOut) =>
        ({ s with table := t, out := out, err := err }, job,
          { result with stdoutOut := stdoutOut, stderrOut := stderrOut })
  else some (s, job, result)

/-- What is done about a report. -/
def handle (s : State) (job : Job) : Report → Option (State × Job × ExecutionResult)
  | .nothing => none
  | .ended ending =>
      collect { s with children := s.children.filter (· ≠ job.pid) } job (resultOf ending.status)
  | .stopped => some (s, job, { preempted := true })
  | .failed gone =>
      some (if gone then { s with children := s.children.filter (· ≠ job.pid) } else s, job, {})

/-- `LinuxNamespaceIsolator::isolateAndRun`, with the job it changes. -/
def isolateAndRun (members : Nat) (host : Host) (job : Job) (s : State) :
    Option (State × Job × ExecutionResult) :=
  if job.cmd.isEmpty then some (s, job, {})
  else
    let (s, job, goesOn) :=
      if job.pid ≤ 0 then launch members host job s
      -- the process exists and is sent `SIGCONT`
      else ({ s with children := job.pid :: s.children }, job, true)
    if goesOn then (wait job.timeQuantum host.reports).bind (handle s job)
    else some (s, job, {})

/-- `isolateAndRun` is called with a watchdog that was not started. -/
def init (table : Table Nat) (fileCounter : Int) (out err : Leftover) : State where
  table := table.map .prior
  children := []
  threads := 0
  fileCounter := fileCounter
  out := out
  err := err

end Isolator

end Isolyx
