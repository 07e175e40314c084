import Isolyx.Core.Rootfs
import Isolyx.Library.Run
import Mathlib.Logic.Function.Basic

/-!
# The Shared Directory for Outputs

All sandboxes have one directory for their root, and so one `/tmp` in which
their outputs lie: `isolyx_out_N` and `isolyx_err_N`, `N` being a number that
starts anew with every run of the engine. Here any number of jobs run at once.
Each byte of a file carries the job whose processes wrote it, or none if it was
there before the engine started, or lies outside of the directory. A write or a
truncation past the end of a file fills it up with zeros, which nobody wrote.

`child_entry` opens the two files one after the other, for writing, creating or
truncating them. With an output redirection it opens the file of that instead
of the first, and gives up if it cannot; a failure with one of the two files it
ignores. It may fail at any step before, between and after, and whatever ends
the process is one action. What `child_entry` prints, and the directory it
makes and removes for `pivot_root`, count among the job's file operations.

File operations act on locations and on files, and which ones is up to the job:
the path that leads there, and the checks on the way, are left out. A rename is
a link and a removal. A file is known by the number of its inode.

`isolateAndRun` opens each file by its path in the engine's namespace, reads it
4096 bytes at a time, and unlinks the path; the other jobs go on meanwhile. The
engine is in the same directory throughout.

## Main definitions

* `Written`: A byte and its author.
* `Files`: The directory, what lies outside of it, and the files.
* `FileOp`: What a job may do to them.
* `Phase`: How far a job has come.
* `Action`: One step of a child, of a job's processes or of the engine.
* `step`: The transition function.
* `Moves`: Its transitions, one by one.
* `init`: No job was launched, and the files are as they are.
-/

namespace Isolyx

namespace SharedTmp

open PathWalk (Route walk)
open Rootfs (Name Loc Path maxSymlinks outName errName outPath errPath hostPath)

/-- A byte of a file, and the job whose process wrote it, if one did. -/
structure Written where
  author : Option Nat
  value : UInt8
  deriving DecidableEq, Repr

/-- Files are known by their inodes. -/
abbrev Node := PathWalk.Node Name Nat

structure Files where
  /-- What is at a location of the directory. -/
  node : Loc → Option Node
  outside : Loc → Option Node
  data : Nat → List Written
  /-- The inode the next file gets. -/
  next : Nat

namespace Files

def lookup (f : Files) (p : Loc) : Option Node := if p = [] then some .dir else f.node p

/-- What is at a location of the host, the directory being at `base`. -/
def host (base : Loc) (f : Files) (p : Loc) : Option Node :=
  if base <+: p then f.lookup (p.drop base.length)
  else if p <+: base then some .dir
  else f.outside p

def bind (f : Files) (p : Loc) (x : Option Node) : Files :=
  { f with node := Function.update f.node p x }

def setData (f : Files) (i : Nat) (content : List Written) : Files :=
  { f with data := Function.update f.data i content }

/-- A new file, with no bytes in it. -/
def create (f : Files) (p : Loc) : Files :=
  { (f.setData f.next []).bind p (some (.file f.next)) with next := f.next + 1 }

/-- `open` with `O_WRONLY | O_CREAT | O_TRUNC`, by a process whose root is the directory. -/
def openTrunc (f : Files) (path : Path) : Option Files :=
  match walk f.lookup maxSymlinks [] path with
  | .found p => match f.lookup p with
      | some (.file i) => some (f.setData i [])
      | _ => none
  | .missing p [] => some (f.create p)
  | _ => none

/-- Remove what is at a location of the host, unless it is a directory. -/
def unlinkAt (base : Loc) (f : Files) (p : Loc) : Files :=
  match f.host base p with
  | some (.file _) | some (.link _) =>
      if base <+: p then f.bind (p.drop base.length) none
      else { f with outside := Function.update f.outside p none }
  | _ => f

end Files

/-- The zeros a file is filled up with to a length. -/
def gap (old : List Written) (len : Nat) : List Written :=
  List.replicate (len - old.length) ⟨none, 0⟩

/-- `pwrite`: past the end of the file it is first filled up. -/
def overwrite (k : Nat) (old : List Written) (pos : Nat) (bytes : Bytes) : List Written :=
  if bytes.isEmpty then old
  else old.take pos ++ gap old pos ++ bytes.map (fun b => ⟨some k, b⟩) ++
    old.drop (pos + bytes.length)

/-- `truncate`, which makes a file shorter or longer. -/
def resize (old : List Written) (len : Nat) : List Written := old.take len ++ gap old len

/-- What a job may do to the files of the shared directory. -/
inductive FileOp where
  | write (i pos : Nat) (bytes : Bytes)
  | truncate (i len : Nat)
  | create (p : Loc)
  /-- A name for a file that exists. -/
  | link (p : Loc) (i : Nat)
  | symlink (p : Loc) (target : Route Name)
  | mkdir (p : Loc)
  /-- The location becomes free: by `unlink`, by `rmdir`, or as a rename's old name. -/
  | remove (p : Loc)
  deriving DecidableEq, Repr

def apply (k : Nat) (f : Files) : FileOp → Files
  | .write i pos bytes => f.setData i (overwrite k (f.data i) pos bytes)
  | .truncate i len => f.setData i (resize (f.data i) len)
  | .create p => f.create p
  | .link p i => f.bind p (some (.file i))
  | .symlink p target => f.bind p (some (.link target))
  | .mkdir p => f.bind p (some .dir)
  | .remove p => f.bind p none

inductive Output where
  | out
  | err
  deriving DecidableEq, Repr

namespace Output

def name (k : Nat) : Output → Name
  | out => outName k
  | err => errName k

/-- `/tmp/isolyx_out_N`, and the same for the errors. -/
def path (k : Nat) : Output → Path
  | out => outPath k
  | err => errPath k

def loc (k : Nat) (o : Output) : Loc := [ascii "tmp", o.name k]

end Output

/-- How far a job has come. -/
inductive Phase where
  | absent
  /-- In `child_entry`, before stdout is opened. -/
  | cloned
  /-- Past that, before stderr is opened. -/
  | outDone
  /-- Past that as well, up to the end of the program. -/
  | running
  /-- The process is reaped; the engine is about to open the file. -/
  | opening (o : Output)
  | reading (o : Output) (i : Nat)
  | done
  deriving DecidableEq, Repr

/-- The process is there. -/
def Phase.live : Phase → Bool
  | cloned | outDone | running => true
  | _ => false

/-- In `child_entry`, before and after an output is opened. -/
def Output.before : Output → Phase
  | out => .cloned
  | err => .outDone

def Output.after : Output → Phase
  | out => .outDone
  | err => .running

/-- Where the engine goes on once an output is collected. -/
def Output.next : Output → Phase
  | out => .opening .err
  | err => .done

structure Job where
  phase : Phase
  /-- `stdout_out` and `stderr_out`, as far as they are read. -/
  result : Output → List Written

/-- Where the shared directory is, and the redirection of each job's output. -/
structure Setup where
  base : Loc
  redirect : Nat → Option Path

structure State where
  files : Files
  jobs : Nat → Job

inductive Action where
  | launch (k : Nat)
  /-- `child_entry` opens an output, or fails to. -/
  | openForWriting (k : Nat) (o : Output) (ok : Bool)
  | operate (k : Nat) (op : FileOp)
  /-- `child_entry` fails, or the program ends. -/
  | ends (k : Nat)
  /-- The engine opens the file of an output. -/
  | openForReading (k : Nat)
  | read (k : Nat)
  deriving DecidableEq, Repr

def setPhase (s : State) (k : Nat) (phase : Phase) : State :=
  { s with jobs := Function.update s.jobs k { s.jobs k with phase := phase } }

/-- The engine appends what it read to an output of a job. -/
def receive (s : State) (k : Nat) (o : Output) (buf : List Written) : State :=
  { s with jobs := Function.update s.jobs k { s.jobs k with
    result := Function.update (s.jobs k).result o ((s.jobs k).result o ++ buf) } }

/-- The file `child_entry` opens for an output. -/
def Setup.target (setup : Setup) (k : Nat) (o : Output) : Path :=
  match o with
  | .out => (setup.redirect k).getD (outPath k)
  | .err => errPath k

/-- The output goes to a file that is not collected. -/
def Setup.redirects (setup : Setup) (k : Nat) (o : Output) : Bool :=
  o = .out && (setup.redirect k).isSome

/-- What opening an output for writing leaves of the files, if it succeeds. -/
def openOutput (setup : Setup) (s : State) (k : Nat) (o : Output) (ok : Bool) : Option Files :=
  if ok then s.files.openTrunc (setup.target k o) else none

/-- The bytes one turn of the loop reads, after those it has. -/
def chunk (data got : List Written) : List Written := (data.drop got.length).take 4096

/-- `unlink` of the path of an output, which follows no link in the last component. -/
def unlink (setup : Setup) (f : Files) (k : Nat) (o : Output) : Files :=
  match walk (f.host setup.base) maxSymlinks [] (hostPath setup.base [.name (ascii "tmp")]) with
  | .found d => f.unlinkAt setup.base (d ++ [o.name k])
  | _ => f

def step (setup : Setup) (s : State) : Action → Option State
  | .launch k => match (s.jobs k).phase with
      | .absent => some (setPhase s k .cloned)
      | _ => none
  | .openForWriting k o ok =>
      if (s.jobs k).phase = o.before then
        match openOutput setup s k o ok with
        | some f => some { setPhase s k o.after with files := f }
        -- without the file of a redirection `child_entry` returns
        | none => if setup.redirects k o then none else some (setPhase s k o.after)
      else none
  | .operate k op =>
      if (s.jobs k).phase.live then some { s with files := apply k s.files op } else none
  | .ends k => if (s.jobs k).phase.live then some (setPhase s k (.opening .out)) else none
  | .openForReading k => match (s.jobs k).phase with
      | .opening o =>
          match walk (s.files.host setup.base) maxSymlinks [] (hostPath setup.base (o.path k)) with
          | .found p => match s.files.host setup.base p with
              | some (.file i) => some (setPhase s k (.reading o i))
              -- a directory can be opened, but neither read nor unlinked
              | _ => some (setPhase s k o.next)
          | _ => some (setPhase s k o.next)
      | _ => none
  | .read k => match (s.jobs k).phase with
      | .reading o i =>
          match chunk (s.files.data i) ((s.jobs k).result o) with
          | [] => some { setPhase s k o.next with files := unlink setup s.files k o }
          | buf => some (receive s k o buf)
      | _ => none

/-- The transitions of `step`, one constructor for each outcome of an action. -/
inductive Moves (setup : Setup) (s : State) : Action → State → Prop
  | launches (k : Nat) (hp : (s.jobs k).phase = .absent) :
      Moves setup s (.launch k) (setPhase s k .cloned)
  | opens (k : Nat) (o : Output) (ok : Bool) (f : Files) (hp : (s.jobs k).phase = o.before)
      (hf : openOutput setup s k o ok = some f) :
      Moves setup s (.openForWriting k o ok) { setPhase s k o.after with files := f }
  | passes (k : Nat) (o : Output) (ok : Bool) (hp : (s.jobs k).phase = o.before)
      (hf : openOutput setup s k o ok = none) :
      Moves setup s (.openForWriting k o ok) (setPhase s k o.after)
  | operates (k : Nat) (op : FileOp) (hp : (s.jobs k).phase.live = true) :
      Moves setup s (.operate k op) { s with files := apply k s.files op }
  | ends (k : Nat) (hp : (s.jobs k).phase.live = true) :
      Moves setup s (.ends k) (setPhase s k (.opening .out))
  | finds (k : Nat) (o : Output) (p : Loc) (i : Nat) (hp : (s.jobs k).phase = .opening o)
      (hwalk : walk (s.files.host setup.base) maxSymlinks [] (hostPath setup.base (o.path k))
        = .found p)
      (hi : s.files.host setup.base p = some (.file i)) :
      Moves setup s (.openForReading k) (setPhase s k (.reading o i))
  | misses (k : Nat) (o : Output) (hp : (s.jobs k).phase = .opening o) :
      Moves setup s (.openForReading k) (setPhase s k o.next)
  | reads (k : Nat) (o : Output) (i : Nat) (hp : (s.jobs k).phase = .reading o i) :
      Moves setup s (.read k)
        (receive s k o (chunk (s.files.data i) ((s.jobs k).result o)))
  | closes (k : Nat) (o : Output) (i : Nat) (hp : (s.jobs k).phase = .reading o i) :
      Moves setup s (.read k)
        { setPhase s k o.next with files := unlink setup s.files k o }

theorem moves_of_step {setup : Setup} {s t : State} {a : Action}
    (h : step setup s a = some t) : Moves setup s a t := by
  cases a with
  | launch k =>
      cases hp : (s.jobs k).phase <;> simp only [step, hp, reduceCtorEq, Option.some.injEq] at h
      exact h ▸ .launches k hp
  | openForWriting k o ok =>
      rw [step, Option.ite_none_right_eq_some] at h
      rcases h with ⟨hp, h⟩
      cases hf : openOutput setup s k o ok with
      | some f =>
          rw [hf, Option.some.injEq] at h
          exact h ▸ .opens k o ok f hp hf
      | none =>
          rw [hf, Option.ite_none_left_eq_some, Option.some.injEq] at h
          exact h.2 ▸ .passes k o ok hp hf
  | operate k op =>
      rw [step, Option.ite_none_right_eq_some, Option.some.injEq] at h
      exact h.2 ▸ .operates k op h.1
  | ends k =>
      rw [step, Option.ite_none_right_eq_some, Option.some.injEq] at h
      exact h.2 ▸ .ends k h.1
  | openForReading k =>
      cases hp : (s.jobs k).phase <;> simp only [step, hp, reduceCtorEq] at h
      rename_i o
      split at h
      · rename_i p hwalk
        split at h
        · rename_i i hi
          exact Option.some.inj h ▸ .finds k o p i hp hwalk hi
        · exact Option.some.inj h ▸ .misses k o hp
      · exact Option.some.inj h ▸ .misses k o hp
  | read k =>
      cases hp : (s.jobs k).phase <;> simp only [step, hp, reduceCtorEq] at h
      rename_i o i
      split at h
      · exact Option.some.inj h ▸ .closes k o i hp
      · exact Option.some.inj h ▸ .reads k o i hp

/-- No job was launched, and the files are as they are. -/
def init (files : Files) : State where
  files := files
  jobs := fun _ => ⟨.absent, fun _ => []⟩

end SharedTmp

end Isolyx
