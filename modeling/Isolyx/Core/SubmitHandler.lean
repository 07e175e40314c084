import Isolyx.Core.ApiServer
import Isolyx.Core.JobLine
import Mathlib.Logic.Function.Basic

/-!
# The Submit Handler

The handler of `POST /api/submit`, call by call: what each of its calls does to
the directory, to the command pipe and to the map, and where it throws. How it
shares the event loop with the reader is in `Core.ApiServer`.

Every call may throw, and the host says which one does. A write that throws may
have made the file before, in part, and so may a compiler that fails. A value
that is no string is refused by `writeFileSync` before it opens anything. A
line is shorter than what a pipe takes in one piece, so a write that throws has
delivered nothing. `pendingRequests.set` does not throw.

A body is what `express.json` lets through, an object or an array. Nobody else
touches the directory or the map meanwhile. The descriptor that stays open
where the write throws is left out, and so are the texts that are printed and
the `details` of an error.

## Main definitions

* `Host`: Which calls throw, and what they leave.
* `State`: The directory, the map and the command pipe.
* `accepted`: The code of a body that passes the check.
* `attempt`: Calls in their order, up to one that throws.
* `handle`: The handler.
-/

namespace Isolyx

namespace SubmitHandler

open ApiServer (binPath)
open CommandLine (digitsValue exponent)
open JsonText (Value Numeral)

/-- The calls in the `try` block that may throw. -/
inductive Call where
  /-- `fs.writeFileSync(sourceFile, code)`. -/
  | writeSource
  /-- `execSync` of the compiler. -/
  | compile
  | unlinkSource
  | openPipe
  | writeLine
  | closePipe
  deriving DecidableEq, Repr

structure Host where
  throws : Call → Bool
  /-- What the write of the source leaves if it throws. -/
  partialSource : Option Bytes
  /-- What the compiler makes. -/
  binary : Bytes
  /-- What it leaves if it fails. -/
  partialBinary : Option Bytes

structure State where
  /-- The files in `ROOTFS_TMP`, by their names. -/
  files : List Char → Option Bytes
  /-- The keys of `pendingRequests`. -/
  pendingRequests : List (List Char)
  /-- The lines written into the command pipe. -/
  delivered : List (List Char)

/-- An error that the handler answers with. -/
structure Response where
  status : Nat
  error : String
  deriving DecidableEq, Repr

def sourceFile (jobId : List Char) : List Char := "job_".toList ++ jobId ++ ".cpp".toList

def binFile (jobId : List Char) : List Char := "job_".toList ++ jobId ++ ".bin".toList

/-! ## The check -/

/-- The literal rounds to a `double` that is zero: it is at most half of the
    least positive one. -/
def isZero (n : Numeral) : Bool :=
  let isExp : Char → Bool := fun c => c = 'e' || c = 'E'
  let unsigned := match n.literal with
    | '-' :: r => r
    | r => r
  let mantissa := unsigned.takeWhile fun c => !isExp c
  let whole := mantissa.takeWhile fun c => c != '.'
  let frac := (mantissa.drop whole.length).drop 1
  let power := exponent ((unsigned.dropWhile fun c => !isExp c).drop 1) - frac.length
  let value := digitsValue (whole ++ frac)
  if value = 0 then true
  else if 0 ≤ power then false
  else (whole ++ frac).length + 324 ≤ (-power).toNat || value * 2 ^ 1075 ≤ 10 ^ (-power).toNat

/-- The value is one that counts as true. -/
def truthy : Value → Bool
  | .null => false
  | .bool b => b
  | .number n => !isZero n
  | .string s => !s.isEmpty
  | .array _ | .object _ => true

/-- A member of the body; of two members with one key the later one counts. -/
def field (key : String) : Value → Option Value
  | .object ms => (ms.findRev? fun m => m.1 = key.toList).map Prod.snd
  | _ => none

/-- The code of a body, unless `!code || language !== 'cpp'`. -/
def accepted (body : Value) : Option Value :=
  (field "code" body).filter fun code => truthy code && match field "language" body with
    | some (.string language) => language = "cpp".toList
    | _ => false

/-! ## The calls -/

/-- A file in the directory. -/
def setFile (s : State) (name : List Char) (content : Option Bytes) : State :=
  { s with files := Function.update s.files name content }

/-- What a call that throws leaves of a file, if it has opened it. -/
def leave (s : State) (name : List Char) : Option Bytes → State
  | none => s
  | some content => setFile s name (some content)

/-- The state after a call, and whether it has thrown. -/
abbrev Result := State × Bool

def writeSource (host : Host) (jobId : List Char) (code : Value) (s : State) : Result :=
  match code with
  | .string text =>
      if host.throws .writeSource then (leave s (sourceFile jobId) host.partialSource, true)
      else (setFile s (sourceFile jobId) (some (Utf8.encode text)), false)
  | _ => (s, true)

def compile (host : Host) (jobId : List Char) (s : State) : Result :=
  if host.throws .compile then (leave s (binFile jobId) host.partialBinary, true)
  else (setFile s (binFile jobId) (some host.binary), false)

def unlinkSource (host : Host) (jobId : List Char) (s : State) : Result :=
  if host.throws .unlinkSource then (s, true) else (setFile s (sourceFile jobId) none, false)

def openPipe (host : Host) (s : State) : Result := (s, host.throws .openPipe)

/-- The line of the job. -/
def payload (jobId : List Char) : List Char :=
  JsonText.print (.object
    [("executable".toList, .string (binPath jobId)), ("args".toList, .array [])])

def writeLine (host : Host) (jobId : List Char) (s : State) : Result :=
  if host.throws .writeLine then (s, true)
  else ({ s with delivered := s.delivered ++ [payload jobId ++ ['\n']] }, false)

def closePipe (host : Host) (s : State) : Result := (s, host.throws .closePipe)

/-- `pendingRequests.set(jobId, res)`. -/
def register (jobId : List Char) (s : State) : Result :=
  ({ s with pendingRequests := s.pendingRequests ++ [jobId] }, false)

/-- Calls in their order, up to one that throws. -/
def attempt : List (State → Result) → State → Result
  | [], s => (s, false)
  | call :: rest, s => match call s with
      | (t, true) => (t, true)
      | (t, false) => attempt rest t

/-- The `try` block. -/
def tryBlock (host : Host) (jobId : List Char) (code : Value) : List (State → Result) :=
  [writeSource host jobId code, compile host jobId, unlinkSource host jobId, openPipe host,
    writeLine host jobId, closePipe host, register jobId]

def badRequest : Response where
  status := 400
  error := "Only C++ (cpp) is currently supported or code is missing."

def failed : Response where
  status := 500
  error := "Compilation failed or engine offline"

/-- The handler, with the error it answers with, if it does not leave the
    answer to the reader. -/
def handle (host : Host) (jobId : List Char) (body : Value) (s : State) :
    State × Option Response :=
  match accepted body with
  | none => (s, some badRequest)
  | some code => match attempt (tryBlock host jobId code) s with
      | (t, true) => (t, some failed)
      | (t, false) => (t, none)

end SubmitHandler

end Isolyx
