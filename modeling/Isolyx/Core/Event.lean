import Isolyx.Core.Dump
import Isolyx.Library.Json
import Isolyx.Library.Utf8

/-!
# Result Events

What `DashboardObserver::onResult` makes of a result: an object with seven
members, and its compact text.

A result holds byte strings. An `Event` is a result whose byte strings are
texts, and `Event.value` the JSON value a reader of its text sees.

## Main definitions

* `eventObject`: The object `onResult` builds.
* `Event`: A result whose strings are texts.
* `Event.value`: The JSON value of an event.
-/

namespace Isolyx

/-- The object `DashboardObserver::onResult` builds, member by member. -/
def eventObject (r : JobResult) : Json.Object :=
  let j : Json.Object := []
  let j := Json.set (ascii "job_id") (.integer r.jobId) j
  let j := Json.set (ascii "command_line") (.string r.commandLine) j
  let j := Json.set (ascii "verdict") (.string r.verdict.text) j
  let j := Json.set (ascii "exit_code") (.integer r.exitCode) j
  let j := Json.set (ascii "term_signal") (.integer r.termSignal) j
  let j := Json.set (ascii "stdout_out") (.string r.stdoutOut) j
  Json.set (ascii "stderr_out") (.string r.stderrOut) j

/-- A result whose strings are texts. -/
structure Event where
  jobId : Nat
  exitCode : Int
  termSignal : Int
  verdict : Verdict
  commandLine : List Char
  stdoutOut : List Char
  stderrOut : List Char
  deriving DecidableEq, Repr

namespace Event

def result (e : Event) : JobResult where
  jobId := e.jobId
  exitCode := e.exitCode
  termSignal := e.termSignal
  verdict := e.verdict
  commandLine := Utf8.encode e.commandLine
  stdoutOut := Utf8.encode e.stdoutOut
  stderrOut := Utf8.encode e.stderrOut

/-- The letters of a verdict. -/
def verdictChars : Verdict → List Char
  | .success => "SUCCESS".toList
  | .timeout => "TIMEOUT".toList
  | .seccompViolation => "SECCOMP_VIOLATION".toList
  | .killed => "KILLED".toList
  | .failed => "FAILED".toList

/-- The members of an event, in the order of their keys. -/
def members (e : Event) : List (List Char × JsonText.Value) := [
  ("command_line".toList, .string e.commandLine),
  ("exit_code".toList, .number (.ofInt e.exitCode)),
  ("job_id".toList, .number (.ofInt e.jobId)),
  ("stderr_out".toList, .string e.stderrOut),
  ("stdout_out".toList, .string e.stdoutOut),
  ("term_signal".toList, .number (.ofInt e.termSignal)),
  ("verdict".toList, .string (verdictChars e.verdict))]

/-- The JSON value of an event. -/
def value (e : Event) : JsonText.Value := .object e.members

/-- The compact text of an event. -/
def text (e : Event) : List Char := JsonText.print e.value

theorem text_head (e : Event) : ∃ l, e.text = '{' :: '"' :: l := by
  rw [text, value, members, JsonText.print, JsonText.printString]
  exact ⟨_, rfl⟩

theorem text_no_newline (e : Event) : '\n' ∉ e.text := JsonText.print_no_newline e.value

/-- An event whose job printed nothing. -/
def quiet : Event where
  jobId := 1
  exitCode := 0
  termSignal := 0
  verdict := .success
  commandLine := ['a']
  stdoutOut := []
  stderrOut := []

end Event

end Isolyx
