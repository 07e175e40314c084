import Isolyx.Core.Command

/-!
# Serializing JSON

The part of the vendored JSON library that serializes an event: `dump` with its
default arguments on an object whose members are strings and integers. The
output is compact, non-ASCII text is copied, and the error handler is the
strict one, which throws on a byte that is not UTF-8.

An object is a `std::map`, so its members come in the byte order of their keys
whatever order they were set in. The string buffer that is flushed on the way
is not visible in the output and is left out.

## Main definitions

* `decode`: One byte of the UTF-8 decoder.
* `dumpEscaped`: Escaping and checking a string.
* `dumpInteger`: The digits of an integer.
* `dump`: The compact text of an object.
-/

namespace Isolyx

namespace Json

/-- `type_error` 316. -/
inductive DumpError where
  | invalidByte (index : Nat) (byte : UInt8)
  | incomplete (last : UInt8)
  deriving DecidableEq, Repr

def byte (c : Char) : UInt8 := UInt8.ofNat c.toNat

/-! ## The UTF-8 decoder -/

/-- The states of `decode` that are named. -/
def utf8Accept : Nat := 0

def utf8Reject : Nat := 1

/-- The table of `decode`: the types of the 256 bytes, then a row of sixteen
    successors for each of the nine states. -/
def utf8d : List Nat := [
  0, 0, 0, 0, 0, 0, 0, 0, 0, 0, 0, 0, 0, 0, 0, 0, 0, 0, 0, 0, 0, 0, 0, 0, 0, 0, 0, 0, 0, 0, 0, 0,
  0, 0, 0, 0, 0, 0, 0, 0, 0, 0, 0, 0, 0, 0, 0, 0, 0, 0, 0, 0, 0, 0, 0, 0, 0, 0, 0, 0, 0, 0, 0, 0,
  0, 0, 0, 0, 0, 0, 0, 0, 0, 0, 0, 0, 0, 0, 0, 0, 0, 0, 0, 0, 0, 0, 0, 0, 0, 0, 0, 0, 0, 0, 0, 0,
  0, 0, 0, 0, 0, 0, 0, 0, 0, 0, 0, 0, 0, 0, 0, 0, 0, 0, 0, 0, 0, 0, 0, 0, 0, 0, 0, 0, 0, 0, 0, 0,
  1, 1, 1, 1, 1, 1, 1, 1, 1, 1, 1, 1, 1, 1, 1, 1, 9, 9, 9, 9, 9, 9, 9, 9, 9, 9, 9, 9, 9, 9, 9, 9,
  7, 7, 7, 7, 7, 7, 7, 7, 7, 7, 7, 7, 7, 7, 7, 7, 7, 7, 7, 7, 7, 7, 7, 7, 7, 7, 7, 7, 7, 7, 7, 7,
  8, 8, 2, 2, 2, 2, 2, 2, 2, 2, 2, 2, 2, 2, 2, 2, 2, 2, 2, 2, 2, 2, 2, 2, 2, 2, 2, 2, 2, 2, 2, 2,
  0xA, 0x3, 0x3, 0x3, 0x3, 0x3, 0x3, 0x3, 0x3, 0x3, 0x3, 0x3, 0x3, 0x4, 0x3, 0x3,
  0xB, 0x6, 0x6, 0x6, 0x5, 0x8, 0x8, 0x8, 0x8, 0x8, 0x8, 0x8, 0x8, 0x8, 0x8, 0x8,
  0x0, 0x1, 0x2, 0x3, 0x5, 0x8, 0x7, 0x1, 0x1, 0x1, 0x4, 0x6, 0x1, 0x1, 0x1, 0x1,
  1, 1, 1, 1, 1, 1, 1, 1, 1, 1, 1, 1, 1, 1, 1, 1, 1, 0, 1, 1, 1, 1, 1, 0, 1, 0, 1, 1, 1, 1, 1, 1,
  1, 2, 1, 1, 1, 1, 1, 2, 1, 2, 1, 1, 1, 1, 1, 1, 1, 1, 1, 1, 1, 1, 1, 2, 1, 1, 1, 1, 1, 1, 1, 1,
  1, 2, 1, 1, 1, 1, 1, 1, 1, 2, 1, 1, 1, 1, 1, 1, 1, 1, 1, 1, 1, 1, 1, 3, 1, 3, 1, 1, 1, 1, 1, 1,
  1, 3, 1, 1, 1, 1, 1, 3, 1, 3, 1, 1, 1, 1, 1, 1, 1, 3, 1, 1, 1, 1, 1, 1, 1, 1, 1, 1, 1, 1, 1, 1]

structure Decoder where
  state : Nat
  codep : Nat
  deriving DecidableEq, Repr

/-- `serializer::decode`. -/
def decode (d : Decoder) (byte : UInt8) : Decoder :=
  let type := utf8d.getD byte.toNat 0
  { codep := if d.state ≠ utf8Accept then (byte.toNat &&& 0x3f) ||| (d.codep <<< 6)
      else (0xFF >>> type) &&& byte.toNat
    state := utf8d.getD (256 + d.state * 16 + type) 0 }

/-! ## Strings -/

/-- What a complete code point is written as; a code point that needs no
    escape leaves its last byte as it is. -/
def escape (codepoint : Nat) (last : UInt8) : Bytes :=
  if codepoint = 0x08 then [byte '\\', byte 'b']
  else if codepoint = 0x09 then [byte '\\', byte 't']
  else if codepoint = 0x0A then [byte '\\', byte 'n']
  else if codepoint = 0x0C then [byte '\\', byte 'f']
  else if codepoint = 0x0D then [byte '\\', byte 'r']
  else if codepoint = 0x22 then [byte '\\', byte '"']
  else if codepoint = 0x5C then [byte '\\', byte '\\']
  else if codepoint ≤ 0x1F then
    -- `\u%04x`
    [byte '\\', byte 'u'] ++ [codepoint / 4096 % 16, codepoint / 256 % 16, codepoint / 16 % 16,
      codepoint % 16].map fun d => byte (Nat.digitChar d)
  else [last]

/-- The loop of `dump_escaped` from index `i` on; `last` is `s.back()`. -/
def dumpEscapedFrom (last : UInt8) : Decoder → Nat → Bytes → Except DumpError Bytes
  | d, _, [] => if d.state = utf8Accept then .ok [] else .error (.incomplete last)
  | d, i, b :: s =>
      let d' := decode d b
      if d'.state = utf8Accept then
        (dumpEscapedFrom last d' (i + 1) s).map (escape d'.codep b ++ ·)
      else if d'.state = utf8Reject then .error (.invalidByte i b)
      else (dumpEscapedFrom last d' (i + 1) s).map (b :: ·)

/-- `serializer::dump_escaped`. -/
def dumpEscaped (s : Bytes) : Except DumpError Bytes :=
  dumpEscapedFrom (s.getLast?.getD 0) ⟨utf8Accept, 0⟩ 0 s

/-! ## Integers -/

/-- An entry of `digits_to_99`. -/
def digitsTo99 (n : Nat) : Bytes := [byte (Nat.digitChar (n / 10)), byte (Nat.digitChar (n % 10))]

/-- The digits of `abs_value`, two at a time. -/
def digits (n : Nat) : Bytes :=
  if 100 ≤ n then digits (n / 100) ++ digitsTo99 (n % 100)
  else if 10 ≤ n then digitsTo99 n
  else [byte (Nat.digitChar n)]
  termination_by n
  decreasing_by omega

/-- `serializer::dump_integer`. -/
def dumpInteger (x : Int) : Bytes :=
  if x = 0 then [byte '0']
  else if x < 0 then byte '-' :: digits x.natAbs
  else digits x.natAbs

/-! ## Objects -/

/-- The values an event's members have. -/
inductive Scalar where
  | string (s : Bytes)
  | integer (x : Int)
  deriving DecidableEq, Repr

/-- An object: its members in the order of their keys. -/
abbrev Object := List (Bytes × Scalar)

/-- `j[key] = x`. -/
def set (key : Bytes) (x : Scalar) : Object → Object
  | [] => [(key, x)]
  | (k, y) :: ms =>
      -- the map is ordered by key, and a later value replaces an earlier one
      if key = k then (k, x) :: ms
      else if key < k then (key, x) :: (k, y) :: ms
      else (k, y) :: set key x ms

def dumpScalar : Scalar → Except DumpError Bytes
  | .string s => (dumpEscaped s).map fun t => byte '"' :: t ++ [byte '"']
  | .integer x => .ok (dumpInteger x)

def dumpMember (m : Bytes × Scalar) : Except DumpError Bytes :=
  (dumpEscaped m.1).bind fun k => (dumpScalar m.2).map fun v =>
    byte '"' :: k ++ [byte '"', byte ':'] ++ v

/-- The members after the opening brace. -/
def dumpMembers : Object → Except DumpError Bytes
  | [] => .ok [byte '}']
  | [m] => (dumpMember m).map (· ++ [byte '}'])
  | m :: ms => (dumpMember m).bind fun t => (dumpMembers ms).map fun r => t ++ byte ',' :: r

/-- `basic_json::dump`. -/
def dump (ms : Object) : Except DumpError Bytes := (dumpMembers ms).map (byte '{' :: ·)

end Json

end Isolyx
