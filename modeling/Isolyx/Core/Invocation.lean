import Isolyx.Core.JobLine
import Isolyx.Core.Parser

/-!
# Invocations

What becomes of a command: `Executor::execute` does nothing for an empty one,
handles `cd` and `exit` itself, and leaves every other to `isolateAndRun`,
which hands the executable and the argument vector to `execvp` as C strings.
The vector is `cmd.arguments` as it stands, and `execvp` takes its first
element for the name the program is called by.

Two front ends make the command. The shell parses a line, and keeps `cd` and
`exit` for itself; the daemon thread parses a line of the command pipe.

## Main definitions

* `Invocation`: What a program is started with.
* `started`: The program started for a command, if one is.
* `startedByShell`: The program started for a line given to the shell.
* `startedByDaemon`: The program started for a line of the command pipe.
* `shellLine`: The line that starts a program in the background.
* `jobValue`: The JSON value of a job line.
-/

namespace Isolyx

/-- What a program is started with, and whether its job is a background one. -/
structure Invocation where
  executable : Bytes
  argv : List Bytes
  isBackground : Bool
  deriving DecidableEq, Repr

namespace Invocation

open CommandLine (parseJob)
open JsonText (Value)

/-- `c_str()`, read as a C string: what precedes the first zero byte. -/
def cString (s : Bytes) : Bytes := s.takeWhile (· != 0)

/-- The program `Executor::execute` starts for a command. -/
def started (cmd : Command) : Option Invocation :=
  if cmd.isEmpty then none
  else if cmd.isBuiltin then none
  else some ⟨cString cmd.executable, cmd.arguments.map cString, cmd.isBackground⟩

/-- The program started for a line given to the shell. -/
def startedByShell (line : Bytes) : Option Invocation :=
  let cmd := Parser.parseLine line
  if cmd.isEmpty then none
  -- executed by the shell's own thread, as a job that is not queued
  else if cmd.isBuiltin then none
  else started cmd

/-- The program started for a line of the command pipe. -/
def startedByDaemon (line : Bytes) : Option Invocation := (parseJob line).bind started

def space : UInt8 := 0x20

/-- The line `e a1 ... an &`. -/
def shellLine (executable : Bytes) (args : List Bytes) : Bytes :=
  executable ++ args.flatMap (fun a => space :: a) ++ space :: ascii "&"

/-- The JSON value of the job line with the same executable and arguments. -/
def jobValue (executable : List Char) (args : List (List Char)) : Value :=
  .object [("executable".toList, .string executable), ("args".toList, .array (args.map .string))]

end Invocation

end Isolyx
