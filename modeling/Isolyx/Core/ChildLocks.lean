import Isolyx.Core.Launch
import Isolyx.Library.Run
import Mathlib.Data.Fintype.Basic
import Mathlib.Logic.Function.Basic

/-!
# Locks in the Child

The threads of the engine and the children they clone, as far as the locks of
the C library go. A child has a copy of the memory at the moment of the clone
and one thread. A lock that somebody else held then has nobody in the child to
release it, so whether `child_entry` blocks is settled by what was held then
and by the path it takes.

The engine allocates everywhere and reports with `perror` and `std::cerr`; each
of these calls takes one lock and releases it. Nobody but a child calls
`setenv`, which takes the lock of the environment and may allocate, too.
`seccomp_load` allocates, and no other call of `child_entry` before `execvp`
takes a lock, unless it fails and is reported. A thread that clones is in no
call that takes one. Which steps of a child succeed is up to an oracle.

## Main definitions

* `Lock`: The locks of the C library.
* `takes`: The locks a step takes.
* `childEntry`: What comes of a child.
* `step`: The transition function.
* `Moves`: Its transitions, one by one.
-/

namespace Isolyx

namespace ChildLocks

open Launch (OsStep Script cloneScript childScript policyInit)

inductive Lock where
  /-- The lock of the environment. -/
  | environ
  /-- The lock of the allocator. -/
  | heap
  /-- The lock of the stream `stderr`. -/
  | stderr
  deriving DecidableEq, Repr

/-! ## The child -/

/-- The locks that a step takes. -/
def takes (allocates : Bool) : OsStep → List Lock
  | .setenv => .environ :: if allocates then [.heap] else []
  | .seccompLoad => [.heap]
  | _ => []

/-- The child calls `perror` if the step fails. -/
def reports : OsStep → Bool
  | .readSync | .sethostname | .mountPrivate | .bindRootfs | .chdirRootfs | .mountProc
  | .pivotRoot | .chdirRoot | .umountOldroot | .openOutputFile | .openInputFile
  | .seccompLoad => true
  | _ => false

/-- What comes of a child. -/
inductive Outcome where
  /-- It gets to `execvp`. -/
  | execs
  /-- It returns from `child_entry` before that. -/
  | returned
  | hangs (lock : Lock)
  deriving DecidableEq, Repr

/-- The steps of the child in their order, with the locks that it will never
    get. -/
def childEntry (held : Lock → Bool) (ok : OsStep → Bool) (allocates : Bool) : Script → Outcome
  | [] => .execs
  | (s, fatal) :: rest => match (takes allocates s).find? held with
      | some l => .hangs l
      | none =>
          if ok s then childEntry held ok allocates rest
          else if reports s && held .stderr then .hangs .stderr
          else if fatal then .returned
          else childEntry held ok allocates rest

/-! ## The engine -/

/-- A call of the engine that takes a lock. -/
inductive Call where
  | allocation
  | report
  deriving DecidableEq, Repr

def Call.lock : Call → Lock
  | .allocation => .heap
  | .report => .stderr

/-- A launch, and what happens to its child. -/
structure Request where
  cmd : Command
  /-- The job has a security policy. -/
  policy : Bool
  ok : OsStep → Bool
  /-- `setenv` allocates. -/
  allocates : Bool

/-- There is a filter to load. -/
def Request.context (w : Request) : Bool := w.policy && (policyInit w.ok).isSome

/-- The steps of its child. -/
def Request.script (w : Request) : Script := childScript w.cmd w.context

structure State (n : Nat) where
  /-- The call that a thread is in, holding its lock. -/
  threads : Fin n → Option Call
  children : List Outcome

inductive Action (n : Nat) where
  | enter (i : Fin n) (call : Call)
  | leave (i : Fin n)
  | launch (i : Fin n) (w : Request)

variable {n : Nat}

def init : State n where
  threads := fun _ => none
  children := []

/-- Some thread holds the lock. -/
def held (s : State n) (l : Lock) : Bool := decide (∃ i, (s.threads i).map Call.lock = some l)

/-- What the launch comes to, if there is a child. -/
def launched (s : State n) (w : Request) : List Outcome :=
  if cloneScript.passes w.ok then [childEntry (held s) w.ok w.allocates w.script] else []

def step (s : State n) : Action n → Option (State n)
  | .enter i call =>
      if s.threads i = none ∧ ∀ j, s.threads j ≠ some call then
        some { s with threads := Function.update s.threads i (some call) }
      else none
  | .leave i =>
      if s.threads i ≠ none then some { s with threads := Function.update s.threads i none }
      else none
  | .launch i w =>
      if s.threads i = none then some { s with children := s.children ++ launched s w } else none

/-- The transitions of `step`, one constructor for each outcome of an action. -/
inductive Moves (s : State n) : Action n → State n → Prop
  | enter (i : Fin n) (call : Call) (hi : s.threads i = none)
      (hfree : ∀ j, s.threads j ≠ some call) :
      Moves s (.enter i call) { s with threads := Function.update s.threads i (some call) }
  | leave (i : Fin n) (hi : s.threads i ≠ none) :
      Moves s (.leave i) { s with threads := Function.update s.threads i none }
  | launch (i : Fin n) (w : Request) (hi : s.threads i = none) :
      Moves s (.launch i w) { s with children := s.children ++ launched s w }

theorem moves_of_step {s t : State n} {a : Action n} (h : step s a = some t) : Moves s a t := by
  cases a with
  | enter i call =>
      rw [step] at h
      split_ifs at h with hi
      exact Option.some.inj h ▸ .enter i call hi.1 hi.2
  | leave i =>
      rw [step] at h
      split_ifs at h with hi
      exact Option.some.inj h ▸ .leave i hi
  | launch i w =>
      rw [step] at h
      split_ifs at h with hi
      exact Option.some.inj h ▸ .launch i w hi

end ChildLocks

end Isolyx
