import Isolyx.Library.Json
import Mathlib.Data.List.Infix

/-!
# The Event Reader

The API server's side of the event pipe: the handler that `readFromPipe` puts
on the stream's `data` event, and the map of requests waiting for a result
that it looks events up in.

The handler gets a chunk of decoded text, cuts it at newlines and treats every
piece that is not blank as an event. It is called again for the next chunk and
remembers nothing in between. What goes wrong inside the loop, in parsing or in
looking up a pending request, is caught there and printed.

Requests are added to the map between chunks, as clients submit. A chunk is a
list of characters, the stream's decoder never splitting one. A number's
truthiness is read off its literal.

## Main definitions

* `State`: The pending requests and what the server has put out.
* `onLine`: One turn of the loop over the pieces of a chunk.
* `onData`: The `data` handler.
* `run`: The handler over a sequence of chunks and submissions.
-/

namespace Isolyx

namespace Reader

open JsonText (Value Numeral)

structure State where
  /-- The keys of `pendingRequests`, oldest first. -/
  pendingRequests : List (List Char) := []
  /-- The events passed to `io.emit`. -/
  emitted : List Value := []
  /-- The requests answered, with the event each was answered with. -/
  replies : List (List Char × Value) := []
  /-- The pieces reported as `Failed to parse event JSON`. -/
  failures : List (List Char) := []

/-- The characters `String.prototype.trim` strips. -/
def isTrimmed (c : Char) : Bool :=
  let n := c.toNat
  0x09 ≤ n && n ≤ 0x0D || n = 0x20 || n = 0xA0 || n = 0x1680 || 0x2000 ≤ n && n ≤ 0x200A ||
    n = 0x2028 || n = 0x2029 || n = 0x202F || n = 0x205F || n = 0x3000 || n = 0xFEFF

/-- The number is zero: no digit before its exponent is another one. -/
def isZero (n : Numeral) : Bool :=
  (n.literal.takeWhile fun c => c != 'e' && c != 'E').all fun c => !JsonText.isDigit c || c = '0'

def includes (s uuid : List Char) : Bool := s.tails.any uuid.isPrefixOf

/-- The value of `event.command_line`: `none` when reading it throws, and
    `some none` when it is undefined. A later member replaces an earlier one. -/
def commandLine : Value → Option (Option Value)
  | .null => none
  | .object ms => some ((ms.findRev? fun m => m.1 = "command_line".toList).map Prod.snd)
  | _ => some none

/-- `event.command_line && event.command_line.includes(uuid)`, as a condition;
    `none` when evaluating it throws. -/
def matchesUuid (event : Value) (uuid : List Char) : Option Bool :=
  match commandLine event with
  | none => none
  | some none => some false
  | some (some v) => match v with
      -- a falsy value stops the conjunction before `includes` is looked up
      | .null => some false
      -- a number and `true` are truthy and have no `includes`
      | .bool b => if b then none else some false
      | .number n => if isZero n then some false else none
      | .string s => some (!s.isEmpty && includes s uuid)
      -- an array has an `includes` of its own, which compares elements
      | .array xs => some (xs.any fun x => match x with
          | .string s => s = uuid
          | _ => false)
      | .object _ => none

/-- The loop over the pending requests: the first one the event matches, or
    `none` when the search throws. -/
def findPending (event : Value) : List (List Char) → Option (Option (List Char))
  | [] => some none
  | uuid :: rest => match matchesUuid event uuid with
      | none => none
      | some true => some (some uuid)
      | some false => findPending event rest

/-- One turn of the loop over the pieces of a chunk. -/
def onLine (s : State) (line : List Char) : State :=
  if line.all isTrimmed then s
  else match JsonText.parse line with
    -- caught by the same `catch` and reported alike
    | none => { s with failures := s.failures ++ [line] }
    | some event =>
        -- the event is emitted before the pending requests are searched
        let s := { s with emitted := s.emitted ++ [event] }
        match findPending event s.pendingRequests with
        | none => { s with failures := s.failures ++ [line] }
        | some none => s
        | some (some uuid) => { s with
            pendingRequests := s.pendingRequests.erase uuid
            replies := s.replies ++ [(uuid, event)] }

/-- The `data` handler. -/
def onData (s : State) (chunk : List Char) : State :=
  (chunk.splitOn '\n').foldl onLine s

/-- What reaches the server: a chunk of the stream, or a client's request. -/
inductive Input where
  | chunk (text : List Char)
  | submit (uuid : List Char)

def Input.text : Input → List Char
  | .chunk text => text
  | .submit _ => []

def step (s : State) : Input → State
  | .chunk text => onData s text
  | .submit uuid => { s with pendingRequests := s.pendingRequests ++ [uuid] }

def run (s : State) (inputs : List Input) : State := inputs.foldl step s

end Reader

end Isolyx
