import Isolyx.Core.Invocation
import Isolyx.Core.JobLine
import Isolyx.Library.Run
import Mathlib.Algebra.Group.Nat.Defs

/-!
# Job Numbers

The two threads that make jobs, the shell and the daemon, and the one atomic
counter that they number them with.

Making a job takes the counter's value and adds one to it, in one step; putting
it into the queue is a step of its own. For a background job the shell then
reads the counter once more, to tell its number, and for any other it waits for
the result. It gets its lines from the standard input, the daemon from the
command pipe, and which ones these are is left to the run. What `exit` does to
the process is not here, only that the shell gets no further line.

The state carries how many numbers have been taken, and a job the number of
those before it.

## Main definitions

* `Numbered`: A job, and its place among all.
* `Shell`, `Daemon`: Where the threads are.
* `step`: The transition function.
* `Moves`: Its transitions, one by one.
-/

namespace Isolyx

namespace Numbering

open CommandLine (parseJob)

/-- A job, and how many numbers were taken before its own. -/
structure Numbered where
  job : Job
  place : Nat
  deriving DecidableEq, Repr

/-- Where the shell is in its loop. -/
inductive Shell where
  | prompt
  /-- About to make the job. -/
  | parsed (cmd : Command)
  | made (n : Numbered)
  | enqueued (n : Numbered)
  /-- Past the loop. -/
  | gone
  deriving DecidableEq, Repr

/-- Where the daemon thread is. -/
inductive Daemon where
  | reading
  | parsed (cmd : Command)
  | made (n : Numbered)
  deriving DecidableEq, Repr

/-- `[Background job N submitted]`, and the job of that line. -/
structure Announcement where
  printed : Nat
  job : Numbered
  deriving DecidableEq, Repr

structure State where
  nextJobId : UInt64
  shell : Shell
  daemon : Daemon
  /-- The jobs that were put into the queue. -/
  accepted : List Numbered
  announced : List Announcement
  /-- How many numbers were taken. -/
  drawn : Nat
  deriving DecidableEq, Repr

inductive Action where
  | shellLine (line : Bytes)
  | shellEof
  | shellMakes
  | shellEnqueues
  /-- The future of the job is ready. -/
  | shellWaits
  | shellPrints
  | daemonLine (line : Bytes)
  | daemonMakes
  | daemonEnqueues
  deriving DecidableEq, Repr

def init : State where
  nextJobId := 1
  shell := .prompt
  daemon := .reading
  accepted := []
  announced := []
  drawn := 0

/-- `Job job{next_job_id++, cmd, promise}`. -/
def makeJob (s : State) (cmd : Command) : Numbered where
  job := { id := s.nextJobId.toNat, cmd := cmd, resultPromise := some s.drawn }
  place := s.drawn

/-- The state in which the number is taken. -/
def draw (s : State) : State := { s with nextJobId := s.nextJobId + 1, drawn := s.drawn + 1 }

/-- Where the shell is after a line. -/
def afterLine (line : Bytes) : Shell :=
  let cmd := Parser.parseLine line
  if cmd.isEmpty then .prompt
  else if cmd.isBuiltin then if cmd.executable = ascii "exit" then .gone else .prompt
  else .parsed cmd

/-- Where the daemon is after a line. -/
def afterJobLine (line : Bytes) : Daemon :=
  if line.isEmpty then .reading
  else match parseJob line with
    | some cmd => .parsed cmd
    | none => .reading

def step (s : State) : Action → Option State
  | .shellLine line => match s.shell with
      | .prompt => some { s with shell := afterLine line }
      | _ => none
  | .shellEof => match s.shell with
      | .prompt => some { s with shell := .gone }
      | _ => none
  | .shellMakes => match s.shell with
      | .parsed cmd => some { draw s with shell := .made (makeJob s cmd) }
      | _ => none
  | .shellEnqueues => match s.shell with
      | .made n => some { s with shell := .enqueued n, accepted := s.accepted ++ [n] }
      | _ => none
  | .shellWaits => match s.shell with
      | .enqueued n => if n.job.cmd.isBackground then none else some { s with shell := .prompt }
      | _ => none
  | .shellPrints => match s.shell with
      | .enqueued n =>
          if n.job.cmd.isBackground then
            some { s with
              shell := .prompt
              announced := s.announced ++ [⟨(s.nextJobId - 1).toNat, n⟩] }
          else none
      | _ => none
  | .daemonLine line => match s.daemon with
      | .reading => some { s with daemon := afterJobLine line }
      | _ => none
  | .daemonMakes => match s.daemon with
      | .parsed cmd => some { draw s with daemon := .made (makeJob s cmd) }
      | _ => none
  | .daemonEnqueues => match s.daemon with
      | .made n => some { s with daemon := .reading, accepted := s.accepted ++ [n] }
      | _ => none

/-- The transitions of `step`, one constructor for each outcome of an action. -/
inductive Moves (s : State) : Action → State → Prop
  | shellLine (line : Bytes) (hp : s.shell = .prompt) :
      Moves s (.shellLine line) { s with shell := afterLine line }
  | shellEof (hp : s.shell = .prompt) : Moves s .shellEof { s with shell := .gone }
  | shellMakes (cmd : Command) (hp : s.shell = .parsed cmd) :
      Moves s .shellMakes { draw s with shell := .made (makeJob s cmd) }
  | shellEnqueues (n : Numbered) (hp : s.shell = .made n) :
      Moves s .shellEnqueues { s with shell := .enqueued n, accepted := s.accepted ++ [n] }
  | shellWaits (n : Numbered) (hp : s.shell = .enqueued n)
      (hfg : ¬ n.job.cmd.isBackground = true) : Moves s .shellWaits { s with shell := .prompt }
  | shellPrints (n : Numbered) (hp : s.shell = .enqueued n)
      (hbg : n.job.cmd.isBackground = true) :
      Moves s .shellPrints { s with
        shell := .prompt
        announced := s.announced ++ [⟨(s.nextJobId - 1).toNat, n⟩] }
  | daemonLine (line : Bytes) (hp : s.daemon = .reading) :
      Moves s (.daemonLine line) { s with daemon := afterJobLine line }
  | daemonMakes (cmd : Command) (hp : s.daemon = .parsed cmd) :
      Moves s .daemonMakes { draw s with daemon := .made (makeJob s cmd) }
  | daemonEnqueues (n : Numbered) (hp : s.daemon = .made n) :
      Moves s .daemonEnqueues { s with daemon := .reading, accepted := s.accepted ++ [n] }

theorem moves_of_step {s t : State} {a : Action} (h : step s a = some t) : Moves s a t := by
  cases a with
  | shellLine line =>
      cases hp : s.shell <;> simp only [step, hp, reduceCtorEq, Option.some.injEq] at h
      exact h ▸ .shellLine line hp
  | shellEof =>
      cases hp : s.shell <;> simp only [step, hp, reduceCtorEq, Option.some.injEq] at h
      exact h ▸ .shellEof hp
  | shellMakes =>
      cases hp : s.shell <;> simp only [step, hp, reduceCtorEq, Option.some.injEq] at h
      exact h ▸ .shellMakes _ hp
  | shellEnqueues =>
      cases hp : s.shell <;> simp only [step, hp, reduceCtorEq, Option.some.injEq] at h
      exact h ▸ .shellEnqueues _ hp
  | shellWaits =>
      cases hp : s.shell <;> simp only [step, hp, reduceCtorEq] at h
      split_ifs at h with hbg
      rw [Option.some.injEq] at h
      exact h ▸ .shellWaits _ hp hbg
  | shellPrints =>
      cases hp : s.shell <;> simp only [step, hp, reduceCtorEq] at h
      split_ifs at h with hbg
      rw [Option.some.injEq] at h
      exact h ▸ .shellPrints _ hp hbg
  | daemonLine line =>
      cases hp : s.daemon <;> simp only [step, hp, reduceCtorEq, Option.some.injEq] at h
      exact h ▸ .daemonLine line hp
  | daemonMakes =>
      cases hp : s.daemon <;> simp only [step, hp, reduceCtorEq, Option.some.injEq] at h
      exact h ▸ .daemonMakes _ hp
  | daemonEnqueues =>
      cases hp : s.daemon <;> simp only [step, hp, reduceCtorEq, Option.some.injEq] at h
      exact h ▸ .daemonEnqueues _ hp

end Numbering

end Isolyx
