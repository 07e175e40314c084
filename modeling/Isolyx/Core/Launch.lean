import Isolyx.Core.Command

/-!
# Launching a Job

One launch, from the call of `Executor::execute` to the `execvp` of the program,
with an oracle that says which of its system calls succeed: `CgroupV2Limiter`'s
constructor and `applyToPid`, `SeccompDenylistPolicy::init`, the launch branch of
`isolateAndRun` and `child_entry`. An empty command, `cd` and `exit` start no
program, and `execute` is done with them before it makes anything.

What a failed step leads to is in the scripts. A fatal step ends the launch, or
the child, where it fails; any other is reported or not, and the launch goes on.
A control file can be opened only if the directory of the cgroup was made, and
carries a limit only if it was also written. The child reads a byte that its
parent wrote, or reads forever.

## Main definitions

* `OsStep`: A step that may fail.
* `Limits`: The limits an executor's limiter is made for.
* `construct`: The control files `CgroupV2Limiter`'s constructor writes.
* `policyInit`: The rules of the filter, if there is a filter.
* `childScript`: The steps of `child_entry`.
* `isolateAndRun`: What the launch branch comes to.
* `launch`: What a launch comes to.
-/

namespace Isolyx

namespace Launch

/-- A file of a cgroup's directory. -/
inductive ControlFile where
  | cpuMax
  | memoryMax
  | memorySwapMax
  | pidsMax
  | procs
  deriving DecidableEq, Repr

inductive Syscall where
  | ptrace
  | reboot
  | mount
  | umount2
  | unshare
  | socket
  deriving DecidableEq, Repr

/-- The system calls `SeccompDenylistPolicy::init` adds a rule for. -/
def denylist : List Syscall := [.ptrace, .reboot, .mount, .umount2, .unshare, .socket]

/-- A step that may fail. -/
inductive OsStep where
  | createDirectories
  | openControl (file : ControlFile)
  | writeControl (file : ControlFile)
  | seccompInit
  | ruleAdd (call : Syscall)
  | pipe
  | clone
  | openUidMap
  | writeUidMap
  | openSetgroups
  | writeSetgroups
  | openGidMap
  | writeGidMap
  | writeSync
  | readSync
  | sethostname
  | mountPrivate
  | bindRootfs
  | chdirRootfs
  | mountProc
  | mkdirOldroot
  | pivotRoot
  | chdirRoot
  | umountOldroot
  | rmdirOldroot
  | openOutputFile
  | openHostOutFile
  | openHostErrFile
  | openInputFile
  | setenv
  | setpgid
  | seccompLoad
  deriving DecidableEq, Repr

/-- The limits an executor's limiter is made for; what is not positive is not limited. -/
structure Limits where
  maxCpuUs : Int
  cpuPeriodUs : Int
  maxMemoryBytes : Int
  maxPids : Int
  deriving DecidableEq, Repr

/-- `stream << x`. -/
def text (x : Int) : Bytes := ascii (toString x)

/-- The files the limits ask for, with what is to be written to them. -/
def Limits.requested (limits : Limits) : List (ControlFile × Bytes) :=
  (if 0 < limits.maxCpuUs then
    [(.cpuMax, text limits.maxCpuUs ++ ascii " " ++ text limits.cpuPeriodUs ++ ascii "\n")]
  else []) ++
  (if 0 < limits.maxMemoryBytes then
    [(.memoryMax, text limits.maxMemoryBytes ++ ascii "\n"), (.memorySwapMax, ascii "0\n")]
  else []) ++
  (if 0 < limits.maxPids then [(.pidsMax, text limits.maxPids ++ ascii "\n")] else [])

/-- A control file is opened and written, in a directory that exists. -/
def stores (ok : OsStep → Bool) (file : ControlFile) : Bool :=
  ok .createDirectories && ok (.openControl file) && ok (.writeControl file)

/-- `CgroupV2Limiter::CgroupV2Limiter`: the files that carry their limit. No
    failure ends the constructor. -/
def construct (ok : OsStep → Bool) (limits : Limits) : List (ControlFile × Bytes) :=
  limits.requested.filter fun f => stores ok f.1

/-- `CgroupV2Limiter::applyToPid`: whether the pid joined the cgroup. -/
def applyToPid (ok : OsStep → Bool) : Bool := stores ok .procs

/-- `SeccompDenylistPolicy::init`: the rules of `ctx_`, if it is not null. -/
def policyInit (ok : OsStep → Bool) : Option (List Syscall) :=
  if ok .seccompInit then some (denylist.filter fun call => ok (.ruleAdd call)) else none

/-- Steps in their order; `true` marks one whose failure is the end. -/
abbrev Script := List (OsStep × Bool)

/-- No step whose failure is the end fails. -/
def Script.passes (ok : OsStep → Bool) (script : Script) : Bool :=
  script.all fun s => !s.2 || ok s.1

/-- The launch branch of `isolateAndRun`, up to the clone. -/
def cloneScript : Script := [(.pipe, true), (.clone, true)]

/-- The rest of it; the byte that was not written is reported and not sent again. -/
def parentScript : Script := [
  (.openUidMap, false), (.writeUidMap, false), (.openSetgroups, false), (.writeSetgroups, false),
  (.openGidMap, false), (.writeGidMap, false), (.writeSync, true)]

/-- `child_entry`, up to `execvp`. A null context is not loaded. -/
def childScript (cmd : Command) (context : Bool) : Script :=
  [(.readSync, true), (.sethostname, true), (.mountPrivate, true), (.bindRootfs, true),
    (.chdirRootfs, true), (.mountProc, false), (.mkdirOldroot, false), (.pivotRoot, true),
    (.chdirRoot, true), (.umountOldroot, true), (.rmdirOldroot, false)] ++
  (if cmd.redirectOutput.isEmpty then [(.openHostOutFile, false)]
    else [(.openOutputFile, true)]) ++
  [(.openHostErrFile, false)] ++
  (if cmd.redirectInput.isEmpty then [] else [(.openInputFile, true)]) ++
  [(.setenv, false), (.setpgid, false)] ++
  if context then [(.seccompLoad, true)] else []

/-- What a launch comes to. -/
structure Launched where
  /-- `child_entry` reaches `execvp`. -/
  reached : Bool
  /-- The limits the job's cgroup carries. -/
  limits : List (ControlFile × Bytes)
  /-- The child is in that cgroup. -/
  member : Bool
  /-- The rules of the filter the child has loaded. -/
  filter : Option (List Syscall)
  deriving DecidableEq, Repr

/-- The launch branch of `isolateAndRun`, with a limiter and a policy if the
    executor has a factory for them. -/
def isolateAndRun (ok : OsStep → Bool) (limiter : Option Limits) (policy : Bool) (cmd : Command) :
    Launched :=
  let limits := match limiter with
    | none => []
    | some limits => construct ok limits
  let context := if policy then policyInit ok else none
  let cloned := cloneScript.passes ok
  let reached := cloned && parentScript.passes ok && (childScript cmd context.isSome).passes ok
  { reached := reached
    limits := limits
    member := limiter.isSome && cloned && applyToPid ok
    filter := if reached then context else none }

/-- `execute`, which returns, or ends the engine, before it makes anything for an
    empty command, `cd` or `exit`. -/
def launch (ok : OsStep → Bool) (limiter : Option Limits) (policy : Bool) (cmd : Command) :
    Launched :=
  if cmd.isEmpty || cmd.isBuiltin then
    { reached := false, limits := [], member := false, filter := none }
  else isolateAndRun ok limiter policy cmd

end Launch

end Isolyx
