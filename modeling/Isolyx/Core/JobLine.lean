import Isolyx.Core.Command
import Isolyx.Library.Json
import Isolyx.Library.Utf8
import Mathlib.Algebra.Group.Nat.Defs

/-!
# Job Lines

What the daemon makes of a line of the command pipe: `json::parse`, then the
members `executable` and `args` of the object it finds. Any exception on the
way is caught, reported, and the line is dropped.

The parser takes a zero byte for the end of the input and never reads on. What
is before it has to be UTF-8; a byte order mark in front is skipped, and a number
too large for a `double` refused. An
object is a map: of two members with one key the later one counts, and going
through an object goes through its keys in order. Going through a value that
is neither an array nor an object is going through that one value, or through
nothing if it is null.

## Main definitions

* `parseText`: `json::parse`.
* `commandOf`: The command of a parsed line.
* `parseJob`: The command of a line.
* `JobLine`: A line that is one job.
-/

namespace Isolyx

namespace CommandLine

open JsonText (Value Numeral)

/-! ## Numbers -/

/-- The digits of a literal, read as one number. -/
def digitsValue (cs : List Char) : Nat := cs.foldl (fun n c => 10 * n + (c.toNat - 48)) 0

/-- The exponent of a literal, with its sign. -/
def exponent (cs : List Char) : Int :=
  match cs with
  | '-' :: r => -(digitsValue r : Int)
  | '+' :: r => digitsValue r
  | r => digitsValue r

/-- The literal rounds to a finite `double`. Its digits without the point are
    scaled by its exponent, and the bound is where rounding to nearest passes
    the largest finite value. -/
def isFinite (n : Numeral) : Bool :=
  let isExp : Char → Bool := fun c => c = 'e' || c = 'E'
  let unsigned := match n.literal with
    | '-' :: r => r
    | r => r
  let mantissa := unsigned.takeWhile fun c => !isExp c
  let whole := mantissa.takeWhile fun c => c != '.'
  let frac := (mantissa.drop whole.length).drop 1
  let power := exponent ((unsigned.dropWhile fun c => !isExp c).drop 1) - frac.length
  let value := digitsValue (whole ++ frac)
  let bound := 2 ^ 1024 - 2 ^ 970
  if value = 0 then true
  else if 0 ≤ power then power ≤ 308 && value * 10 ^ power.toNat < bound
  else value < bound * 10 ^ (-power).toNat

mutual

/-- Every number of the value is finite. -/
def finiteNumbers : Value → Bool
  | .number n => isFinite n
  | .array xs => finiteElements xs
  | .object ms => finiteMembers ms
  | .null | .bool _ | .string _ => true

def finiteElements : List Value → Bool
  | [] => true
  | x :: xs => finiteNumbers x && finiteElements xs

def finiteMembers : List (List Char × Value) → Bool
  | [] => true
  | (_, x) :: ms => finiteNumbers x && finiteMembers ms

end

/-! ## The parser -/

/-- `json::parse`. -/
def parseText (line : Bytes) : Option Value :=
  -- what is behind a zero byte is not read
  (Utf8.decode (line.takeWhile (· != 0))).bind fun cs =>
    let cs := match cs with
      -- a byte order mark is skipped once
      | '\uFEFF' :: r => r
      | r => r
    (JsonText.parse cs).filter finiteNumbers

/-! ## The command -/

/-- Set a member of a map, in the order of its keys. -/
def setMember (key : List Char) (x : Value) : List (List Char × Value) → List (List Char × Value)
  | [] => [(key, x)]
  | (k, y) :: ms =>
      if key = k then (k, x) :: ms
      else if key < k then (key, x) :: (k, y) :: ms
      else (k, y) :: setMember key x ms

/-- The map an object's members make. -/
def toMap (ms : List (List Char × Value)) : List (List Char × Value) :=
  ms.foldl (fun m kx => setMember kx.1 kx.2 m) []

/-- `j[key]`, if `j.contains(key)`. -/
def member? (key : List Char) (ms : List (List Char × Value)) : Option Value :=
  ((toMap ms).find? fun m => m.1 = key).map Prod.snd

/-- The values a loop over a value goes through. -/
def items : Value → List Value
  | .null => []
  | .array xs => xs
  | .object ms => (toMap ms).map Prod.snd
  | v => [v]

/-- `get<std::string>()`. -/
def getString : Value → Option Bytes
  | .string s => some (Utf8.encode s)
  | _ => none

/-- The command of a parsed line; `none` where the source throws. -/
def commandOf : Value → Option Command
  | .object ms =>
      -- a missing member is left at its default; one of another type throws
      let executable := match member? "executable".toList ms with
        | none => some []
        | some v => getString v
      let arguments := match member? "args".toList ms with
        | none => some []
        | some v => (items v).mapM getString
      executable.bind fun e => arguments.map fun args =>
        -- daemon jobs are always background
        { executable := e, arguments := args, isBackground := true }
  | _ => none

/-- The command of a line. -/
def parseJob (line : Bytes) : Option Command := (parseText line).bind commandOf

theorem parseJob_nil : parseJob [] = none := by decide

/-- The byte that ends a line. -/
def newline : UInt8 := 0x0A

/-- A line that is one job. -/
structure JobLine where
  text : Bytes
  oneLine : newline ∉ text
  wellFormed : (parseJob text).isSome = true
  deriving DecidableEq, Repr

/-- The bytes of the line, its newline included. -/
def JobLine.bytes (l : JobLine) : Bytes := l.text ++ [newline]

end CommandLine

end Isolyx
