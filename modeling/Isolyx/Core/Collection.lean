import Isolyx.Core.SharedTmp
import Isolyx.Library.Run

/-!
# Collecting the Outputs

The two calls of `read_and_delete`, system call by system call, on whatever the
sandbox left at the two paths. The program and all that it started have ended,
so the host's file system stands still but for the two calls of `unlink`.

A path is resolved in the engine's namespace. Behind it may be any object of
the host. A regular file gives its bytes, 4096 at a time. A FIFO blocks the
`open` for as long as no process opens it for writing, and there is none left.
Of anything else, a device or a file of `/proc`, it is open what the `open`
comes to and what each `read` gives; a `read` may block as well. A directory
can be opened and not read. The engine may lack the permission for an `open`
or an `unlink`.

A step is a system call that returns. There is none from a call that blocks,
and there is none from the end.

## Main definitions

* `Object`: What may be behind a path.
* `Object.answer`: What the reads of an object give.
* `Host`: The host's file system.
* `Phase`: Where the collection is.
* `step`: One system call.
* `init`: The first path is about to be opened.
-/

namespace Isolyx

namespace Collection

open PathWalk (walk)
open Rootfs (Loc Name Path hostPath maxSymlinks)
open SharedTmp (Output)

/-- What `open` comes to. -/
inductive Opening where
  | succeeds
  | fails
  | blocks
  deriving DecidableEq, Repr

/-- What may be behind a path, other than a directory or a link. -/
inductive Object where
  | regular (content : Bytes)
  /-- A FIFO that no process has open for writing. -/
  | fifo
  /-- Anything else. A read gives some bytes, or none at the end and in case of
      an error, or it blocks. -/
  | special (opening : Opening) (answer : Nat → Option Bytes)

namespace Object

/-- What opening an object for reading comes to. -/
def opening : Object → Opening
  | regular _ => .succeeds
  | fifo => .blocks
  | special opening _ => opening

/-- What the read after so many others gives. -/
def answer : Object → Nat → Option Bytes
  | regular content, k => some ((content.drop (4096 * k)).take 4096)
  | fifo, _ => none
  | special _ answer, k => answer k

end Object

abbrev Node := PathWalk.Node Name Object

/-- A host file system, and what the engine may do to it. -/
structure Host where
  node : Loc → Option Node
  mayOpen : Loc → Bool
  mayUnlink : Loc → Bool

namespace Host

/-- The location a path names without following a link in its last component. -/
def entry (h : Host) (path : Path) : Option Loc :=
  match path.getLast? with
  | some (.name n) => match walk h.node maxSymlinks [] path.dropLast with
      | .found d => if (h.node d matches some .dir) then some (d ++ [n]) else none
      | _ => none
  | _ => none

/-- `unlink`, which fails on a directory. -/
def unlink (h : Host) (path : Path) : Host :=
  match h.entry path with
  | some p => match h.node p with
      | some (.file _) | some (.link _) =>
          if h.mayUnlink p then { h with node := Function.update h.node p none } else h
      | _ => h
  | none => h

/-- What `open` for reading comes to, and where. -/
def openPath (h : Host) (path : Path) : Opening × Loc :=
  match walk h.node maxSymlinks [] path with
  | .found p =>
      if h.mayOpen p then match h.node p with
        | some (.file object) => (object.opening, p)
        | _ => (.succeeds, p)
      else (.fails, p)
  | .missing p _ => (.fails, p)
  | .failed => (.fails, [])

/-- What the read after so many others gives; the error of reading a directory
    ends the loop like the end of a file. -/
def read (h : Host) (p : Loc) (k : Nat) : Option Bytes :=
  match h.node p with
  | some (.file object) => object.answer k
  | _ => some []

end Host

/-- Where the collection is, `reads` being the number of reads that gave bytes. -/
inductive Phase where
  | opening (o : Output)
  | reading (o : Output) (p : Loc) (reads : Nat)
  | closing (o : Output)
  | unlinking (o : Output)
  | done
  deriving DecidableEq, Repr

structure State where
  host : Host
  phase : Phase
  stdoutOut : Bytes
  stderrOut : Bytes

/-- Where the directory of the sandboxes is, and the number of the job. -/
structure Setup where
  base : Loc
  uniqueId : Nat

/-- The path of an output. -/
def Setup.path (setup : Setup) (o : Output) : Path := hostPath setup.base (o.path setup.uniqueId)

/-- `read_and_delete` of an output has returned. -/
def next : Output → Phase
  | .out => .opening .err
  | .err => .done

/-- `out.append(buf, bytes)`. -/
def append (s : State) (o : Output) (bytes : Bytes) : State :=
  match o with
  | .out => { s with stdoutOut := s.stdoutOut ++ bytes }
  | .err => { s with stderrOut := s.stderrOut ++ bytes }

def step (setup : Setup) (s : State) : Unit → Option State := fun _ =>
  match s.phase with
  | .opening o => match s.host.openPath (setup.path o) with
      | (.succeeds, p) => some { s with phase := .reading o p 0 }
      | (.fails, _) => some { s with phase := next o }
      | (.blocks, _) => none
  | .reading o p reads => match s.host.read p reads with
      | some (b :: bytes) =>
          some { append s o (b :: bytes) with phase := .reading o p (reads + 1) }
      | some [] => some { s with phase := .closing o }
      | none => none
  | .closing o => some { s with phase := .unlinking o }
  | .unlinking o => some { s with host := s.host.unlink (setup.path o), phase := next o }
  | .done => none

def init (host : Host) : State where
  host := host
  phase := .opening .out
  stdoutOut := []
  stderrOut := []

end Collection

end Isolyx
