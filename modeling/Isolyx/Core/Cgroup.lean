import Isolyx.Core.Command
import Isolyx.Library.LexicalPath
import Isolyx.Library.Run

/-!
# Cgroups of Concurrent Jobs

Any number of `CgroupV2Limiter`s in use at the same time, with the directories
of their cgroups and the processes in them: constructors, `applyToPid` and
destructors, in any interleaving, and what the processes do meanwhile. What the
constructor writes into the control files is in `Core.Launch`.

All the directories are made in one, which the constructor finds with the line
of `/proc/self/cgroup`. The text behind its last colon is put behind the mount
point, and the parent of that is it.

The name of a directory ends in a number that the constructor draws. The
generator is shared by all workers and may deliver any sequence of values. A
directory that is already there is taken as it is, and one that cannot be made
is reported and no more.

A process belongs to the job it was launched for, and so do the processes it
forks, which start in its cgroup. Only `applyToPid` moves one, into the cgroup
of its own job's limiter. A destructor kills the processes it reads in
`cgroup.procs` one by one; others may be forked meanwhile. Then it removes the
directory, which fails as long as a process is in it, and after ten attempts it
gives up.

The state carries a history that no step reads: whose processes a destructor
killed, and whose cgroup it removed.

## Main definitions

* `Limiter`: A limiter that was constructed and not destroyed.
* `getBaseCgroupPath`: The directory the directories are made in.
* `cgroupPath`: The directory a limiter makes.
* `State`: The limiters, the directories and the processes.
* `step`: The transition function.
* `Moves`: Its transitions, one by one.
* `init`: Nothing was constructed yet.
-/

namespace Isolyx

namespace Cgroup

def slash : UInt8 := 0x2F

def colon : UInt8 := 0x3A

def newline : UInt8 := 0x0A

/-- Where cgroups are mounted. -/
def mountPoint : Bytes := ascii "/sys/fs/cgroup"

/-- `CgroupV2Limiter::getBaseCgroupPath`, given what `/proc/self/cgroup` holds;
    a file that cannot be opened holds nothing. -/
def getBaseCgroupPath (file : Bytes) : Bytes :=
  let line := file.takeWhile (· != newline)
  if !file.isEmpty && line.contains colon then
    -- `p += path` puts no separator in between
    LexicalPath.parent slash (mountPoint ++ LexicalPath.afterLast colon line)
  else ascii "/sys/fs/cgroup/isolyx"

/-- `std::to_string` of the value drawn. -/
def toDecimal (value : UInt32) : Bytes := ascii (toString value.toNat)

def cgroupPath (base : Bytes) (value : UInt32) : Bytes :=
  base ++ ascii "/isolyx_" ++ toDecimal value

/-- A limiter, numbered in the order of construction, and the job it is for. -/
structure Limiter where
  number : Nat
  job : Nat
  /-- What `getBaseCgroupPath` returned. -/
  base : Bytes
  value : UInt32
  /-- The destructor is running. -/
  destroying : Bool
  deriving DecidableEq, Repr

/-- `cgroup_path_`. -/
def Limiter.path (l : Limiter) : Bytes := cgroupPath l.base l.value

/-- A process of a job, and the cgroup of a limiter if it is in one. -/
structure Proc where
  pid : Nat
  job : Nat
  cgroup : Option Bytes
  deriving DecidableEq, Repr

structure State where
  made : Nat
  limiters : List Limiter
  dirs : List Bytes
  procs : List Proc
  /-- The job of a limiter and that of a process its destructor killed. -/
  killed : List (Nat × Nat)
  /-- The job of a limiter and that of another one whose directory it removed. -/
  removed : List (Nat × Nat)

inductive Action where
  /-- A constructor; `creates` is whether a missing directory can be made. -/
  | construct (job : Nat) (base : Bytes) (value : UInt32) (creates : Bool)
  /-- A process is launched for a job. -/
  | launch (pid job : Nat)
  | applyToPid (l : Limiter) (p : Proc)
  | fork (p : Proc) (pid : Nat)
  | exit (p : Proc)
  | destroy (l : Limiter)
  /-- The destructor reads a process in `cgroup.procs` and kills it. -/
  | kill (l : Limiter) (p : Proc)
  | remove (l : Limiter)
  | giveUp (l : Limiter)

/-- The limiter that the next constructor makes. -/
def State.limiter (s : State) (job : Nat) (base : Bytes) (value : UInt32) : Limiter where
  number := s.made
  job := job
  base := base
  value := value
  destroying := false

/-- The other limiters with the directory of this one. -/
def State.sharing (s : State) (l : Limiter) : List Limiter :=
  (s.limiters.erase l).filter fun k => k.path = l.path

def step (s : State) : Action → Option State
  | .construct job base value creates =>
      let l := s.limiter job base value
      some { s with
        made := s.made + 1
        limiters := l :: s.limiters
        dirs := if l.path ∈ s.dirs then s.dirs else if creates then l.path :: s.dirs else s.dirs }
  | .launch pid job => some { s with procs := ⟨pid, job, none⟩ :: s.procs }
  | .applyToPid l p =>
      if l ∈ s.limiters ∧ l.destroying = false ∧ p ∈ s.procs ∧ p.job = l.job then
        -- without a directory there is no `cgroup.procs` to open
        if l.path ∈ s.dirs then
          some { s with procs := { p with cgroup := some l.path } :: s.procs.erase p }
        else some s
      else none
  | .fork p pid =>
      if p ∈ s.procs then some { s with procs := { p with pid := pid } :: s.procs } else none
  | .exit p => if p ∈ s.procs then some { s with procs := s.procs.erase p } else none
  | .destroy l =>
      if l ∈ s.limiters ∧ l.destroying = false then
        some { s with limiters := { l with destroying := true } :: s.limiters.erase l }
      else none
  | .kill l p =>
      if l ∈ s.limiters ∧ l.destroying = true ∧ p ∈ s.procs ∧ p.cgroup = some l.path then
        some { s with procs := s.procs.erase p, killed := (l.job, p.job) :: s.killed }
      else none
  | .remove l =>
      if l ∈ s.limiters ∧ l.destroying = true ∧ l.path ∈ s.dirs ∧
          ∀ p ∈ s.procs, p.cgroup ≠ some l.path then
        some { s with
          limiters := s.limiters.erase l
          dirs := s.dirs.erase l.path
          removed := (s.sharing l).map (fun k => (l.job, k.job)) ++ s.removed }
      else none
  | .giveUp l =>
      if l ∈ s.limiters ∧ l.destroying = true then
        some { s with limiters := s.limiters.erase l }
      else none

/-- The transitions of `step`, those that find no directory left out. -/
inductive Moves (s : State) : Action → State → Prop
  | constructs (job : Nat) (base : Bytes) (value : UInt32) (creates : Bool) (dirs : List Bytes) :
      Moves s (.construct job base value creates) { s with
        made := s.made + 1
        limiters := s.limiter job base value :: s.limiters
        dirs := dirs }
  | launches (pid job : Nat) :
      Moves s (.launch pid job) { s with procs := ⟨pid, job, none⟩ :: s.procs }
  | applies (l : Limiter) (p : Proc) (hl : l ∈ s.limiters) (hp : p ∈ s.procs)
      (hjob : p.job = l.job) : Moves s (.applyToPid l p)
        { s with procs := { p with cgroup := some l.path } :: s.procs.erase p }
  | misses (l : Limiter) (p : Proc) : Moves s (.applyToPid l p) s
  | forks (p : Proc) (pid : Nat) (hp : p ∈ s.procs) :
      Moves s (.fork p pid) { s with procs := { p with pid := pid } :: s.procs }
  | exits (p : Proc) : Moves s (.exit p) { s with procs := s.procs.erase p }
  | destroys (l : Limiter) (hl : l ∈ s.limiters) :
      Moves s (.destroy l)
        { s with limiters := { l with destroying := true } :: s.limiters.erase l }
  | kills (l : Limiter) (p : Proc) (hl : l ∈ s.limiters) (hp : p ∈ s.procs)
      (hc : p.cgroup = some l.path) :
      Moves s (.kill l p)
        { s with procs := s.procs.erase p, killed := (l.job, p.job) :: s.killed }
  | removes (l : Limiter) (hl : l ∈ s.limiters) :
      Moves s (.remove l) { s with
        limiters := s.limiters.erase l
        dirs := s.dirs.erase l.path
        removed := (s.sharing l).map (fun k => (l.job, k.job)) ++ s.removed }
  | givesUp (l : Limiter) (hl : l ∈ s.limiters) :
      Moves s (.giveUp l) { s with limiters := s.limiters.erase l }

theorem moves_of_step {s t : State} {a : Action} (h : step s a = some t) : Moves s a t := by
  cases a with
  | construct job base value creates =>
      exact Option.some.inj h ▸ .constructs job base value creates _
  | launch pid job => exact Option.some.inj h ▸ .launches pid job
  | applyToPid l p =>
      simp only [step, Option.ite_none_right_eq_some] at h
      rcases h with ⟨⟨hl, _, hp, hjob⟩, h⟩
      split at h
      · exact Option.some.inj h ▸ .applies l p hl hp hjob
      · exact Option.some.inj h ▸ .misses l p
  | fork p pid =>
      simp only [step, Option.ite_none_right_eq_some, Option.some.injEq] at h
      exact h.2 ▸ .forks p pid h.1
  | exit p =>
      simp only [step, Option.ite_none_right_eq_some, Option.some.injEq] at h
      exact h.2 ▸ .exits p
  | destroy l =>
      simp only [step, Option.ite_none_right_eq_some, Option.some.injEq] at h
      exact h.2 ▸ .destroys l h.1.1
  | kill l p =>
      simp only [step, Option.ite_none_right_eq_some, Option.some.injEq] at h
      rcases h with ⟨⟨hl, _, hp, hc⟩, rfl⟩
      exact .kills l p hl hp hc
  | remove l =>
      simp only [step, Option.ite_none_right_eq_some, Option.some.injEq] at h
      exact h.2 ▸ .removes l h.1.1
  | giveUp l =>
      simp only [step, Option.ite_none_right_eq_some, Option.some.injEq] at h
      exact h.2 ▸ .givesUp l h.1.1

/-- Nothing was constructed yet. -/
def init : State where
  made := 0
  limiters := []
  dirs := []
  procs := []
  killed := []
  removed := []

end Cgroup

end Isolyx
