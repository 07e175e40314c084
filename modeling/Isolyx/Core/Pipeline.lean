import Isolyx.Core.Executor
import Isolyx.Library.Descriptors

/-!
# The Pipeline's Processes

`Executor::executePipeline` for two commands or more, call by call: `pipe`,
`fork` with what the child does on the way to `execvp`, the `close` calls of the
engine, and the loop of `waitpid` calls. `Core.Executor` says which programs a
pipeline starts; here are the descriptors they are started with, the engine's
own, and what becomes of the children.

`fork` gives the child a copy of the engine's table, and from then on nobody
else changes it, so what the child does up to `execvp` is done in the step that
forks it. A child ends whenever it likes, and with any status: that of its
program, or 1 if there is none. A file that cannot be opened leaves `dup2` and
`close` with −1, where they fail. The engine is the only one to wait for the
children, and nothing interrupts it.

What was open when `executePipeline` was called is known by numbers. Pipes are
known by the position of the command that writes to them.

## Main definitions

* `Desc`: What a descriptor refers to.
* `Child`: A forked child.
* `Phase`: Where `executePipeline` is.
* `childTable`: The descriptors a child has when it calls `execvp`.
* `Action`: One call, or the end of a child.
* `step`: The transition function.
* `Moves`: Its transitions, one by one.
* `init`: `executePipeline` is called.
-/

namespace Isolyx

namespace Pipeline

open Descriptors (Table)
open Invocation (cString)
open Lifecycle (WaitStatus resultOf)

/-- What a descriptor refers to. -/
inductive Desc where
  /-- Open since before the call. -/
  | prior (file : Nat)
  | readEnd (i : Nat)
  | writeEnd (i : Nat)
  | input (path : Bytes)
  | output (path : Bytes)
  deriving DecidableEq, Repr

inductive ChildStatus where
  | running
  | zombie (status : WaitStatus)
  | reaped (status : WaitStatus)
  deriving DecidableEq, Repr

structure Child where
  pid : Nat
  /-- The vector `execvp` is called with, whose first element is the path. -/
  argv : List Bytes
  /-- The descriptors at the call of `execvp`. -/
  table : Table Desc
  status : ChildStatus
  deriving DecidableEq

/-- Where `executePipeline` is; `fd` are the two ends of the pipe just made. -/
inductive Phase where
  | piping (i : Nat)
  | forking (i : Nat) (fd : Option (Nat × Nat))
  | waiting (j : Nat) (result : ExecutionResult)
  | returned (result : ExecutionResult)
  /-- A single command was left to `execute`. -/
  | delegated
  deriving DecidableEq, Repr

def Child.isReaped (c : Child) : Bool :=
  match c.status with
  | .reaped _ => true
  | .running | .zombie _ => false

structure State where
  /-- The engine's descriptors. -/
  table : Table Desc
  phase : Phase
  /-- The local variable, where −1 is `none`. -/
  prevFd : Option Nat
  children : List Child
  deriving DecidableEq

inductive Action where
  | pipe (ok : Bool)
  /-- `pid` is what `fork` returns, −1 being `none`; the flags say whether the
      child can open the files of its redirections. -/
  | fork (pid : Option Nat) (opensOutput opensInput : Bool)
  /-- A child ends. -/
  | ends (k : Nat) (status : WaitStatus)
  | waitpid
  deriving DecidableEq, Repr

/-- The call of the engine succeeds. -/
def Action.made : Action → Bool
  | .pipe ok => ok
  | .fork pid _ _ => pid.isSome
  | .ends _ _ | .waitpid => true

/-- The calls of the child do. -/
def Action.opens : Action → Bool
  | .fork _ opensOutput opensInput => opensOutput && opensInput
  | .pipe _ | .ends _ _ | .waitpid => true

/-- `close`, which does nothing to −1. -/
def closeFd (t : Table Desc) : Option Nat → Table Desc
  | none => t
  | some n => t.close n

/-- `dup2` and `close`, which do nothing to −1. -/
def moveFd (t : Table Desc) (old : Option Nat) (new : Nat) : Table Desc :=
  match old with
  | none => t
  | some n => t.move n new

/-- A redirection: `open`, `dup2` and `close`. -/
def redirect (path : Bytes) (file : Desc) (opens : Bool) (new : Nat) (t : Table Desc) :
    Table Desc :=
  if path.isEmpty then t
  else if opens then moveFd (t.insert file) (some t.free) new
  else moveFd t none new

/-- The descriptors a child has when it calls `execvp`, from the table it
    inherits. -/
def childTable (cmd : Command) (i : Nat) (prevFd : Option Nat) (fd : Option (Nat × Nat))
    (opensOutput opensInput : Bool) (t : Table Desc) : Table Desc :=
  let t := if 0 < i then moveFd t prevFd 0 else t
  let t := match fd with
    | none => t
    | some (readFd, writeFd) => (t.move writeFd 1).close readFd
  let t := redirect cmd.redirectOutput (.output (cString cmd.redirectOutput)) opensOutput 1 t
  redirect cmd.redirectInput (.input (cString cmd.redirectInput)) opensInput 0 t

/-- The parent's branch after a `fork`: its table and its `prev_fd`. -/
def parentBranch (i : Nat) (prevFd : Option Nat) (fd : Option (Nat × Nat)) (t : Table Desc) :
    Table Desc × Option Nat :=
  let t := if 0 < i then closeFd t prevFd else t
  match fd with
  | none => (t, prevFd)
  | some (readFd, writeFd) => (t.close writeFd, some readFd)

/-- `pipeline.back().isBackground`. -/
def isBackground (pipeline : List Command) : Bool :=
  (pipeline.getLast?.map Command.isBackground).getD false

/-- The test of the loop over the commands, and what follows it. -/
def phaseAt (pipeline : List Command) (i : Nat) : Phase :=
  if i + 1 < pipeline.length then .piping i
  -- the last command needs no pipe
  else if i < pipeline.length then .forking i none
  else if isBackground pipeline then .returned { success := true }
  else .waiting 0 { success := true }

/-- A process id that is taken stays so until its process is reaped. -/
def Child.holds (pid : Nat) (c : Child) : Bool := !c.isReaped && c.pid = pid

/-- `result` after a wait: only the last child has a say in it. -/
def afterWait (children : List Child) (c : Child) (status : WaitStatus)
    (result : ExecutionResult) : ExecutionResult :=
  if (children.getLast?.map Child.pid) = some c.pid then resultOf status else result

/-- A child was forked, and both go on. -/
def forked (pipeline : List Command) (s : State) (i : Nat) (fd : Option (Nat × Nat)) (pid : Nat)
    (cmd : Command) (opensOutput opensInput : Bool) : State where
  table := (parentBranch i s.prevFd fd s.table).1
  phase := phaseAt pipeline (i + 1)
  prevFd := (parentBranch i s.prevFd fd s.table).2
  children := s.children ++
    [{ pid := pid
       argv := cmd.arguments.map cString
       table := childTable cmd i s.prevFd fd opensOutput opensInput s.table
       status := .running }]

/-- `waitpid` returned for a child. -/
def reap (s : State) (j : Nat) (c : Child) (status : WaitStatus) (result : ExecutionResult) :
    State where
  table := s.table
  phase :=
    if j + 1 < s.children.length then .waiting (j + 1) (afterWait s.children c status result)
    else .returned (afterWait s.children c status result)
  prevFd := s.prevFd
  children := s.children.set j { c with status := .reaped status }

def step (pipeline : List Command) (s : State) : Action → Option State
  | .pipe ok => match s.phase with
    | .piping i =>
        if ok then
          let t := s.table.insert (.readEnd i)
          some { s with
            table := t.insert (.writeEnd i)
            phase := .forking i (some (s.table.free, t.free)) }
        else some { s with phase := .returned { success := false } }
    | _ => none
  | .fork pid opensOutput opensInput => match s.phase with
    | .forking i fd => match pid, pipeline[i]? with
      | none, some _ => some { s with phase := .returned { success := false } }
      | some pid, some cmd =>
          if pid = 0 || s.children.any (Child.holds pid) then none
          else some (forked pipeline s i fd pid cmd opensOutput opensInput)
      | _, none => none
    | _ => none
  | .ends k status => match s.children[k]? with
    | some c => match c.status with
      | .running => some { s with children := s.children.set k { c with status := .zombie status } }
      | _ => none
    | none => none
  | .waitpid => match s.phase with
    | .waiting j result => match s.children[j]? with
      | some c => match c.status with
        | .zombie status => some (reap s j c status result)
        | _ => none
      | none => none
    | _ => none

/-- The steps, one by one. -/
inductive Moves (pipeline : List Command) (s : State) : Action → State → Prop
  | pipes (i : Nat) (hp : s.phase = .piping i) :
      Moves pipeline s (.pipe true)
        { s with
          table := (s.table.insert (.readEnd i)).insert (.writeEnd i)
          phase := .forking i (some (s.table.free, (s.table.insert (.readEnd i)).free)) }
  | pipeFails (i : Nat) (hp : s.phase = .piping i) :
      Moves pipeline s (.pipe false) { s with phase := .returned { success := false } }
  | forks (i : Nat) (fd : Option (Nat × Nat)) (pid : Nat) (cmd : Command)
      (opensOutput opensInput : Bool) (hp : s.phase = .forking i fd) (hc : pipeline[i]? = some cmd)
      (hpid : s.children.any (Child.holds pid) = false) :
      Moves pipeline s (.fork (some pid) opensOutput opensInput)
        (forked pipeline s i fd pid cmd opensOutput opensInput)
  | forkFails (i : Nat) (fd : Option (Nat × Nat)) (opensOutput opensInput : Bool)
      (hp : s.phase = .forking i fd) :
      Moves pipeline s (.fork none opensOutput opensInput)
        { s with phase := .returned { success := false } }
  | ended (k : Nat) (c : Child) (status : WaitStatus) (hk : s.children[k]? = some c)
      (hc : c.status = .running) :
      Moves pipeline s (.ends k status)
        { s with children := s.children.set k { c with status := .zombie status } }
  | waits (j : Nat) (c : Child) (status : WaitStatus) (result : ExecutionResult)
      (hp : s.phase = .waiting j result) (hj : s.children[j]? = some c)
      (hc : c.status = .zombie status) :
      Moves pipeline s .waitpid (reap s j c status result)

theorem moves_of_step {pipeline : List Command} {s t : State} {a : Action}
    (h : step pipeline s a = some t) : Moves pipeline s a t := by
  cases a with
  | pipe ok =>
      cases hp : s.phase <;> simp only [step, hp, reduceCtorEq] at h
      cases ok with
      | true => exact Option.some.inj h ▸ .pipes _ hp
      | false => exact Option.some.inj h ▸ .pipeFails _ hp
  | fork pid opensOutput opensInput =>
      cases hp : s.phase <;> simp only [step, hp, reduceCtorEq] at h
      rename_i i fd
      cases pid <;> cases hc : pipeline[i]? <;>
        simp only [hc, reduceCtorEq, Option.ite_none_left_eq_some, Option.some.injEq] at h
      · exact h ▸ .forkFails i fd opensOutput opensInput hp
      · rename_i pid cmd
        rw [Bool.or_eq_true, not_or, Bool.not_eq_true, Bool.not_eq_true] at h
        exact h.2 ▸ .forks i fd pid cmd opensOutput opensInput hp hc h.1.2
  | ends k status =>
      cases hk : s.children[k]? with
      | none => simp only [step, hk, reduceCtorEq] at h
      | some c =>
          cases hc : c.status <;> simp only [step, hk, hc, reduceCtorEq, Option.some.injEq] at h
          exact h ▸ .ended k c status hk hc
  | waitpid =>
      cases hp : s.phase <;> simp only [step, hp, reduceCtorEq] at h
      rename_i j result
      cases hj : s.children[j]? with
      | none => simp only [hj, reduceCtorEq] at h
      | some c =>
          cases hc : c.status <;> simp only [hj, hc, reduceCtorEq, Option.some.injEq] at h
          exact h ▸ .waits j c _ result hp hj hc

/-- The table with what was open before the call. -/
def atEntry (entry : Table Nat) : Table Desc := entry.map .prior

/-- `executePipeline` is called. -/
def init (pipeline : List Command) (entry : Table Nat) : State where
  table := atEntry entry
  phase := match pipeline with
    | [] => .returned { success := true }
    | [_] => .delegated
    | _ :: _ :: _ => phaseAt pipeline 0
  prevFd := none
  children := []

end Pipeline

end Isolyx
