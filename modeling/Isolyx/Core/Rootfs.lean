import Isolyx.Core.Command
import Isolyx.Library.PathWalk

/-!
# The Root File System

What a sandboxed program can do to the directory it runs in, and how the
engine collects the output it left there.

`child_entry` makes the directory its root, so every path the sandbox opens is
resolved inside it: an absolute link starts at that directory, and its parent
is itself. It opens the two output files there and runs the program, which may
do any sequence of file operations; an operation that fails changes nothing.
What the program prints is an `append` to wherever the file is by then. A
second name of one file is left out, since what is written through it can as
well be written twice.

`isolateAndRun` reads the two files after the program has ended. It opens them
by their absolute path in the engine's own namespace, so links are followed in
the host's file system, and it unlinks what the path names. Of the host, only
the directory's own ancestors are known to be directories; everything else
outside of it may be anything.

Permissions play no part: the engine may open and unlink what it resolves.

## Main definitions

* `Tree`: The contents of the directory.
* `FileOp`: What a program may do to it.
* `prepareRootfs`: Where the directory is.
* `sandboxed`: What a program leaves of it.
* `Host`: The directory in its host.
* `readAndDelete`: `read_and_delete`.
* `isolateAndRun`: The two outputs of a program.
-/

namespace Isolyx

namespace Rootfs

open PathWalk (Comp Route walk)

abbrev Name := Bytes

/-- A location, as the names that lead to it. -/
abbrev Loc := List Name

abbrev Node := PathWalk.Node Name Bytes

abbrev Path := List (Comp Name)

/-- How many links a walk follows before it gives up. -/
def maxSymlinks : Nat := 40

/-! ## Entries -/

/-- The location a path names without following a link in its last component. -/
def entry (f : Loc → Option Node) (path : Path) : Option Loc :=
  match path.getLast? with
  | some (.name n) => match walk f maxSymlinks [] path.dropLast with
      | .found d => if f d = some .dir then some (d ++ [n]) else none
      | _ => none
  | _ => none

/-! ## The directory -/

/-- The contents of a directory, by location below it. -/
abbrev Tree := List (Loc × Node)

namespace Tree

def lookup (t : Tree) (p : Loc) : Option Node :=
  if p = [] then some .dir else (t.find? fun e => e.1 = p).map Prod.snd

def set (p : Loc) (x : Node) (t : Tree) : Tree := (p, x) :: t.filter fun e => e.1 ≠ p

def remove (p : Loc) (t : Tree) : Tree := t.filter fun e => e.1 ≠ p

/-- The directory is not empty. -/
def hasChildren (p : Loc) (t : Tree) : Bool := t.any fun e => p <+: e.1 ∧ e.1 ≠ p

/-- Everything at or below `p` goes to `q`. -/
def move (p q : Loc) (t : Tree) : Tree :=
  t.map fun e => if p <+: e.1 then (q ++ e.1.drop p.length, e.2) else e

end Tree

/-- What a program may do to the directory it runs in. -/
inductive FileOp where
  /-- Open for writing, creating or truncating, and write. -/
  | write (path : Path) (content : Bytes)
  | append (path : Path) (content : Bytes)
  | unlink (path : Path)
  | rename (old new : Path)
  | symlink (target : Route Name) (path : Path)
  | mkdir (path : Path)
  | rmdir (path : Path)
  deriving DecidableEq, Repr

/-- Open for writing and change the contents. -/
def writeFile (t : Tree) (path : Path) (change : Bytes → Bytes) : Tree :=
  match walk t.lookup maxSymlinks [] path with
  | .found p => match t.lookup p with
      | some (.file b) => t.set p (.file (change b))
      | _ => t
  | .missing p [] => t.set p (.file (change []))
  | _ => t

/-- Make a new entry. -/
def create (t : Tree) (path : Path) (x : Node) : Tree :=
  match entry t.lookup path with
  | some p => if t.lookup p = none then t.set p x else t
  | none => t

def renameEntry (t : Tree) (p q : Loc) : Tree :=
  match t.lookup p with
  | none => t
  | some x =>
      -- a directory cannot go below itself, and onto itself nothing moves
      if p <+: q then t
      else match x, t.lookup q with
        | .dir, some .dir => if t.hasChildren q then t else (t.remove q).move p q
        | .dir, some _ => t
        | _, some .dir => t
        | _, _ => (t.remove q).move p q

def apply (t : Tree) : FileOp → Tree
  | .write path content => writeFile t path fun _ => content
  | .append path content => writeFile t path fun b => b ++ content
  | .unlink path => match entry t.lookup path with
      | some p => match t.lookup p with
          | some (.file _) | some (.link _) => t.remove p
          | _ => t
      | none => t
  | .rename old new => match entry t.lookup old, entry t.lookup new with
      | some p, some q => renameEntry t p q
      | _, _ => t
  | .symlink target path => create t path (.link target)
  | .mkdir path => create t path .dir
  | .rmdir path => match entry t.lookup path with
      | some p => if t.lookup p = some .dir ∧ t.hasChildren p = false then t.remove p else t
      | none => t

/-! ## A run in the sandbox -/

/-- `PerLanguageRootfsProvider::prepareRootfs`, called in a working directory. -/
def prepareRootfs (cwd : Loc) : Loc := cwd ++ [ascii "rootfs_base"]

def outName (id : Nat) : Name := ascii ("isolyx_out_" ++ toString id)

def errName (id : Nat) : Name := ascii ("isolyx_err_" ++ toString id)

/-- `/tmp/isolyx_out_N`. -/
def outPath (id : Nat) : Path := [.name (ascii "tmp"), .name (outName id)]

def errPath (id : Nat) : Path := [.name (ascii "tmp"), .name (errName id)]

/-- The two files `child_entry` opens. -/
def openOutputs (id : Nat) : List FileOp := [.write (outPath id) [], .write (errPath id) []]

/-- What a program leaves of the directory it runs in. -/
def sandboxed (id : Nat) (t : Tree) (prog : List FileOp) : Tree :=
  (openOutputs id ++ prog).foldl apply t

/-! ## The engine -/

/-- A host file system: the directory, and what lies outside of it. -/
structure Host where
  outside : Loc → Option Node
  tree : Tree

namespace Host

variable (base : Loc)

/-- What is at a location of the host, the directory being at `base`. -/
def lookup (h : Host) (p : Loc) : Option Node :=
  if base <+: p then h.tree.lookup (p.drop base.length)
  else if p <+: base then some .dir
  else h.outside p

def remove (h : Host) (p : Loc) : Host :=
  if base <+: p then { h with tree := h.tree.remove (p.drop base.length) }
  else { h with outside := fun q => if q = p then none else h.outside q }

/-- `unlink`. -/
def unlink (h : Host) (path : Path) : Host :=
  match entry (h.lookup base) path with
  | some p => match h.lookup base p with
      | some (.file _) | some (.link _) => h.remove base p
      | _ => h
  | none => h

end Host

/-- `read_and_delete`. Opening a directory succeeds and reading it fails. -/
def readAndDelete (base : Loc) (h : Host) (path : Path) : Bytes × Host :=
  match walk (h.lookup base) maxSymlinks [] path with
  | .found p =>
      let out := match h.lookup base p with
        | some (.file b) => b
        | _ => []
      -- the unlink resolves the path once more, without following a last link
      (out, h.unlink base path)
  | _ => ([], h)

/-- The path of a file of the sandbox in the engine's namespace. -/
def hostPath (base : Loc) (path : Path) : Path := base.map .name ++ path

/-- The two files of a job, in the order they are collected. -/
def collect (base : Loc) (id : Nat) (h : Host) : Bytes × Bytes :=
  let (out, h) := readAndDelete base h (hostPath base (outPath id))
  let (err, _) := readAndDelete base h (hostPath base (errPath id))
  (out, err)

/-- `stdout_out` and `stderr_out` of a program run in a directory whose host has
    something outside of it. -/
def isolateAndRun (base : Loc) (id : Nat) (outside : Loc → Option Node) (t : Tree)
    (prog : List FileOp) : Bytes × Bytes :=
  collect base id ⟨outside, sandboxed id t prog⟩

end Rootfs

end Isolyx
