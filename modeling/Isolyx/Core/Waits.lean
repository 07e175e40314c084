import Isolyx.Core.Lifecycle
import Mathlib.Logic.Function.Basic

/-!
# Who Waits for Whom

The calls of `waitpid` in the engine, by any number of threads at once: the
wait of `isolateAndRun`, with and without a quantum, the waits of
`executePipeline`, and the loop of `reapZombies`. The first two wait for one
process each. The last takes the status of any child of the engine that has
ended, whoever launched it.

The kernel keeps a child until its status is taken, and gives its pid to no
other one before that. A `waitpid` for a pid of which there is no child fails
with `ECHILD`; nothing else fails or interrupts it. A job that was preempted is
in the queue between two bursts, and any thread may resume it. Children stop,
continue and end on their own.

A pipeline of one command is a launch, one of none does nothing, and a launch
that starts no process is left out. Each turn of the loop of `reapZombies` is a
step of its own.

Calls are numbered, and a child has the number of the call that launched it or
resumed it last. The state carries a history of the statuses taken, the calls
whose `waitpid` failed, the children that a call has left behind, and the
results, where `none` is one that was computed from a variable never written.

## Main definitions

* `Child`: A child of the engine.
* `Call`: Where a thread is.
* `Taken`: A status that was taken.
* `step`: The transition function.
* `Moves`: Its transitions, one by one.
-/

namespace Isolyx

namespace Waits

open Lifecycle (WaitStatus resultOf)

inductive ChildStatus where
  | running
  /-- `reported` once a wait has seen the stop. -/
  | stopped (reported : Bool)
  | zombie (status : WaitStatus)
  deriving DecidableEq, Repr

/-- A child whose status was not taken. -/
structure Child where
  pid : Nat
  /-- The call that launched it, or resumed it last. -/
  caller : Nat
  /-- It is not a child of a pipeline in the background. -/
  awaited : Bool
  status : ChildStatus
  deriving DecidableEq, Repr

/-- Where a thread is. -/
inductive Call where
  | outside
  /-- In the wait of `isolateAndRun`, which polls if there is a quantum. -/
  | isolating (call pid : Nat) (quantum : Bool)
  /-- In `executePipeline`, with that many commands to fork. -/
  | forking (call left : Nat) (background : Bool) (pids : List Nat)
  /-- In the loop that waits, with the pids it has left. -/
  | waiting (call : Nat) (pids : List Nat)
  deriving DecidableEq, Repr

/-- A status that was taken, and by which call; `none` is `reapZombies`. -/
structure Taken where
  child : Child
  taker : Option Nat
  deriving DecidableEq, Repr

structure State (n : Nat) where
  calls : Fin n → Call
  children : List Child
  /-- The pids of the preempted jobs. -/
  queue : List Nat
  nextCall : Nat
  taken : List Taken
  /-- The calls whose `waitpid` failed. -/
  failed : List Nat
  /-- The pids that a foreground pipeline has not waited for. -/
  abandoned : List Nat
  results : List (Nat × Option ExecutionResult)

inductive Action (n : Nat) where
  | launch (i : Fin n) (pid : Nat) (quantum : Bool)
  | resume (i : Fin n) (pid : Nat) (quantum : Bool)
  | pipeline (i : Fin n) (commands : List Command)
  /-- `pid` is `none` if `pipe` or `fork` fails. -/
  | fork (i : Fin n) (pid : Option Nat)
  /-- A call of `waitpid` for one process that has something to report. -/
  | wait (i : Fin n)
  /-- A turn of `reapZombies`. -/
  | reap (i : Fin n) (pid : Nat)
  | stops (pid : Nat)
  | continues (pid : Nat)
  | ends (pid : Nat) (status : WaitStatus)
  deriving DecidableEq, Repr

variable {n : Nat}

def init : State n where
  calls := fun _ => .outside
  children := []
  queue := []
  nextCall := 0
  taken := []
  failed := []
  abandoned := []
  results := []

def setCall (s : State n) (i : Fin n) (c : Call) : State n :=
  { s with calls := Function.update s.calls i c }

/-- The child with that pid. -/
def child? (s : State n) (pid : Nat) : Option Child := s.children.find? fun c => c.pid = pid

def setStatus (s : State n) (pid : Nat) (status : ChildStatus) : State n :=
  { s with children := s.children.map fun c => if c.pid = pid then { c with status } else c }

/-- The status of a child is taken, and the child is gone. -/
def take (s : State n) (c : Child) (taker : Option Nat) : State n :=
  { s with
    children := s.children.filter fun d => d.pid ≠ c.pid
    taken := s.taken ++ [⟨c, taker⟩] }

/-- A new child of a call. -/
def start (s : State n) (call pid : Nat) (awaited : Bool) : State n :=
  { s with children := s.children ++ [⟨pid, call, awaited, .running⟩] }

/-- A call returns. -/
def answer (s : State n) (i : Fin n) (call : Nat) (result : Option ExecutionResult) : State n :=
  { setCall s i .outside with results := s.results ++ [(call, result)] }

/-- The job is preempted. -/
def preempt (s : State n) (i : Fin n) (call pid : Nat) : State n :=
  { answer (setStatus s pid (.stopped true)) i call (some { preempted := true }) with
    queue := s.queue ++ [pid] }

/-- A thread goes on with a preempted job. -/
def resume (s : State n) (i : Fin n) (pid : Nat) (quantum : Bool) : State n :=
  { setCall s i (.isolating s.nextCall pid quantum) with
    nextCall := s.nextCall + 1
    queue := s.queue.erase pid
    children := s.children.map fun c => if c.pid = pid then { c with caller := s.nextCall } else c }

/-- `pipe` or `fork` fails, and the pipeline returns at once. -/
def abandon (s : State n) (i : Fin n) (call : Nat) (background : Bool) (pids : List Nat) :
    State n :=
  { answer s i call (some {}) with
    abandoned := s.abandoned ++ if background then [] else pids }

/-- The pipeline has forked `pids`. -/
def forked (s : State n) (i : Fin n) (call left : Nat) (background : Bool) (pids : List Nat) :
    State n :=
  if left ≠ 0 then setCall s i (.forking call left background pids)
  else if background then answer s i call (some { success := true })
  else setCall s i (.waiting call pids)

/-- A turn of the loop of a pipeline; its result comes from the last one. -/
def waited (s : State n) (i : Fin n) (call : Nat) (rest : List Nat)
    (status : Option WaitStatus) : State n :=
  if rest.isEmpty then answer s i call (status.map resultOf)
  else setCall s i (.waiting call rest)

def step (s : State n) : Action n → Option (State n)
  | .launch i pid quantum => match s.calls i with
      | .outside =>
          if child? s pid = none then
            some { setCall (start s s.nextCall pid true) i (.isolating s.nextCall pid quantum) with
              nextCall := s.nextCall + 1 }
          else none
      | _ => none
  | .resume i pid quantum => match s.calls i with
      | .outside => if pid ∈ s.queue then some (resume s i pid quantum) else none
      | _ => none
  | .pipeline i commands => match s.calls i with
      | .outside => match commands.getLast? with
          | some last =>
              if 2 ≤ commands.length then
                some { setCall s i (.forking s.nextCall commands.length last.isBackground []) with
                  nextCall := s.nextCall + 1 }
              else none
          | none => none
      | _ => none
  | .fork i pid => match s.calls i with
      | .forking call (left + 1) background pids => match pid with
          | none => some (abandon s i call background pids)
          | some pid =>
              if child? s pid = none then
                some (forked (start s call pid !background) i call left background (pids ++ [pid]))
              else none
      | _ => none
  | .wait i => match s.calls i with
      | .isolating call pid quantum => match child? s pid with
          | none => some { answer s i call (some {}) with failed := s.failed ++ [call] }
          | some c => match c.status with
              | .zombie status =>
                  some (answer (take s c (some call)) i call (some (resultOf status)))
              | .stopped false => if quantum then some (preempt s i call pid) else none
              | _ => none
      | .waiting call (pid :: rest) => match child? s pid with
          | none => some { waited s i call rest none with failed := s.failed ++ [call] }
          | some c => match c.status with
              | .zombie status => some (waited (take s c (some call)) i call rest (some status))
              | _ => none
      | _ => none
  | .reap i pid => match s.calls i with
      | .outside => match child? s pid with
          | some c => match c.status with
              | .zombie _ => some (take s c none)
              | _ => none
          | none => none
      | _ => none
  | .stops pid => match (child? s pid).map Child.status with
      | some .running => some (setStatus s pid (.stopped false))
      | _ => none
  | .continues pid => match (child? s pid).map Child.status with
      | some (.stopped _) => some (setStatus s pid .running)
      | _ => none
  | .ends pid status => match (child? s pid).map Child.status with
      | some .running | some (.stopped _) => some (setStatus s pid (.zombie status))
      | _ => none

/-- The transitions of `step`, one constructor for each outcome of an action. -/
inductive Moves (s : State n) : Action n → State n → Prop
  | launches (i : Fin n) (pid : Nat) (quantum : Bool) (hi : s.calls i = .outside)
      (hpid : child? s pid = none) : Moves s (.launch i pid quantum)
        { setCall (start s s.nextCall pid true) i (.isolating s.nextCall pid quantum) with
          nextCall := s.nextCall + 1 }
  | resumes (i : Fin n) (pid : Nat) (quantum : Bool) (hi : s.calls i = .outside)
      (hpid : pid ∈ s.queue) : Moves s (.resume i pid quantum) (resume s i pid quantum)
  | begins (i : Fin n) (commands : List Command) (last : Command) (hi : s.calls i = .outside) :
      Moves s (.pipeline i commands)
        { setCall s i (.forking s.nextCall commands.length last.isBackground []) with
          nextCall := s.nextCall + 1 }
  | abandons (i : Fin n) (call left : Nat) (background : Bool) (pids : List Nat)
      (hi : s.calls i = .forking call (left + 1) background pids) :
      Moves s (.fork i none) (abandon s i call background pids)
  | forks (i : Fin n) (call left : Nat) (background : Bool) (pids : List Nat) (pid : Nat)
      (hi : s.calls i = .forking call (left + 1) background pids) (hpid : child? s pid = none) :
      Moves s (.fork i (some pid))
        (forked (start s call pid !background) i call left background (pids ++ [pid]))
  | fails (i : Fin n) (call pid : Nat) (quantum : Bool)
      (hi : s.calls i = .isolating call pid quantum) (hpid : child? s pid = none) :
      Moves s (.wait i) { answer s i call (some {}) with failed := s.failed ++ [call] }
  | takes (i : Fin n) (call pid : Nat) (quantum : Bool) (c : Child) (status : WaitStatus)
      (hi : s.calls i = .isolating call pid quantum) (hpid : child? s pid = some c) :
      Moves s (.wait i) (answer (take s c (some call)) i call (some (resultOf status)))
  | preempts (i : Fin n) (call pid : Nat) (quantum : Bool)
      (hi : s.calls i = .isolating call pid quantum) : Moves s (.wait i) (preempt s i call pid)
  | loses (i : Fin n) (call pid : Nat) (rest : List Nat)
      (hi : s.calls i = .waiting call (pid :: rest)) (hpid : child? s pid = none) :
      Moves s (.wait i) { waited s i call rest none with failed := s.failed ++ [call] }
  | waits (i : Fin n) (call pid : Nat) (rest : List Nat) (c : Child) (status : WaitStatus)
      (hi : s.calls i = .waiting call (pid :: rest)) (hpid : child? s pid = some c) :
      Moves s (.wait i) (waited (take s c (some call)) i call rest (some status))
  | reaps (i : Fin n) (pid : Nat) (c : Child) (hi : s.calls i = .outside)
      (hpid : child? s pid = some c) : Moves s (.reap i pid) (take s c none)
  | changes (a : Action n) (pid : Nat) (status : ChildStatus)
      (ha : a = .stops pid ∨ a = .continues pid ∨ ∃ st, a = .ends pid st) :
      Moves s a (setStatus s pid status)

theorem moves_of_step {s t : State n} {a : Action n} (h : step s a = some t) : Moves s a t := by
  cases a with
  | launch i pid quantum =>
      cases hi : s.calls i <;> simp only [step, hi, reduceCtorEq] at h
      split_ifs at h with hpid
      exact Option.some.inj h ▸ .launches i pid quantum hi hpid
  | resume i pid quantum =>
      cases hi : s.calls i <;> simp only [step, hi, reduceCtorEq] at h
      split_ifs at h with hpid
      exact Option.some.inj h ▸ .resumes i pid quantum hi hpid
  | pipeline i commands =>
      cases hi : s.calls i <;> simp only [step, hi, reduceCtorEq] at h
      cases hlast : commands.getLast? with
      | none => simp only [hlast, reduceCtorEq] at h
      | some last =>
          simp only [hlast] at h
          split_ifs at h
          exact Option.some.inj h ▸ .begins i commands last hi
  | fork i pid =>
      cases hi : s.calls i with
      | forking call left background pids =>
          cases left with
          | zero => simp only [step, hi, reduceCtorEq] at h
          | succ left =>
              cases pid with
              | none =>
                  simp only [step, hi, Option.some.injEq] at h
                  exact h ▸ .abandons i call left background pids hi
              | some pid =>
                  simp only [step, hi] at h
                  split_ifs at h with hpid
                  exact Option.some.inj h ▸ .forks i call left background pids pid hi hpid
      | _ => simp only [step, hi, reduceCtorEq] at h
  | wait i =>
      cases hi : s.calls i with
      | isolating call pid quantum =>
          cases hpid : child? s pid with
          | none =>
              simp only [step, hi, hpid, Option.some.injEq] at h
              exact h ▸ .fails i call pid quantum hi hpid
          | some c =>
              simp only [step, hi, hpid] at h
              split at h
              · exact Option.some.inj h ▸ .takes i call pid quantum c _ hi hpid
              · split_ifs at h
                exact Option.some.inj h ▸ .preempts i call pid quantum hi
              · exact nomatch h
      | waiting call pids =>
          cases pids with
          | nil => simp only [step, hi, reduceCtorEq] at h
          | cons pid rest =>
              cases hpid : child? s pid with
              | none =>
                  simp only [step, hi, hpid, Option.some.injEq] at h
                  exact h ▸ .loses i call pid rest hi hpid
              | some c =>
                  simp only [step, hi, hpid] at h
                  split at h
                  · exact Option.some.inj h ▸ .waits i call pid rest c _ hi hpid
                  · exact nomatch h
      | _ => simp only [step, hi, reduceCtorEq] at h
  | reap i pid =>
      cases hi : s.calls i <;> simp only [step, hi, reduceCtorEq] at h
      cases hpid : child? s pid with
      | none => simp only [hpid, reduceCtorEq] at h
      | some c =>
          simp only [hpid] at h
          split at h
          · exact Option.some.inj h ▸ .reaps i pid c hi hpid
          · exact nomatch h
  | stops pid =>
      simp only [step] at h
      split at h
      · exact Option.some.inj h ▸ .changes _ pid _ (.inl rfl)
      · exact nomatch h
  | continues pid =>
      simp only [step] at h
      split at h
      · exact Option.some.inj h ▸ .changes _ pid _ (.inr (.inl rfl))
      · exact nomatch h
  | ends pid status =>
      simp only [step] at h
      split at h
      · exact Option.some.inj h ▸ .changes _ pid _ (.inr (.inr ⟨status, rfl⟩))
      · exact Option.some.inj h ▸ .changes _ pid _ (.inr (.inr ⟨status, rfl⟩))
      · exact nomatch h

end Waits

end Isolyx
