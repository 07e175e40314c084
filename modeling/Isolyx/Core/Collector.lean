import Isolyx.Core.Event

/-!
# Observers and the End of an Iteration

What happens to a final outcome: `workerLoop` makes a result of it, hands it to
`ResultCollector::submitResult`, which calls the observers in the order they
were registered, and then sets the job's promise.

An observer puts out bytes: the logging one a line on standard output, the
dashboard one the text it hands to `writeToPipe`. Serializing that text may
throw. Nothing on the way catches, so the observers after it are not called,
the promise is not set and the exception leaves `workerLoop`, the function of a
thread.

## Main definitions

* `onResult`: What an observer puts out for a result.
* `submitResult`: Calling the observers in order.
* `finishIteration`: The end of an iteration of `workerLoop`.
-/

namespace Isolyx

namespace Collector

/-- The observers there are. -/
inductive Observer where
  | logging
  | dashboard
  deriving DecidableEq, Repr

/-- The line `LoggingObserver::onResult` prints. -/
def loggingLine (r : JobResult) : Bytes :=
  ascii "[LoggingObserver] Job " ++ Json.dumpInteger r.jobId ++
    ascii " (" ++ r.commandLine ++ ascii ") finished." ++
    ascii " Verdict: " ++ r.verdict.text ++
    ascii ", Exit Code: " ++ Json.dumpInteger r.exitCode ++
    ascii ", Signal: " ++ Json.dumpInteger r.termSignal ++ ascii "\n"

/-- `IResultObserver::onResult`. -/
def onResult (r : JobResult) : Observer → Except Json.DumpError Bytes
  | .logging => .ok (loggingLine r)
  | .dashboard => Json.dump (eventObject r)

/-- What became of a result: what was put out by each observer whose call
    returned, and the exception that ended the round, if one did. -/
structure Round where
  received : List (Observer × Bytes)
  thrown : Option Json.DumpError
  deriving DecidableEq, Repr

/-- `ResultCollector::submitResult`. -/
def submitResult (r : JobResult) : List Observer → Round
  | [] => ⟨[], none⟩
  | o :: os => match onResult r o with
      | .error e => ⟨[], some e⟩
      | .ok out =>
          let rest := submitResult r os
          ⟨(o, out) :: rest.received, rest.thrown⟩

/-- What an iteration left behind. -/
structure Iteration where
  received : List (Observer × Bytes)
  /-- The value the job's promise was set to. -/
  promiseValue : Option Int
  /-- The exception that left `workerLoop`. -/
  escaped : Option Json.DumpError
  deriving DecidableEq, Repr

/-- The end of an iteration of `workerLoop`, for a final outcome. -/
def finishIteration (observers : List Observer) (job : Job) (res : ExecutionResult) : Iteration :=
  let round := submitResult (jobResult job res) observers
  match round.thrown with
  -- nothing between `dump` and the thread's entry catches, so the promise is never reached
  | some e => ⟨round.received, none, some e⟩
  | none => ⟨round.received, job.resultPromise.map fun _ => if res.success then 0 else 1, none⟩

end Collector

end Isolyx
