import Isolyx.Library.Run
import Mathlib.Logic.Function.Basic

/-!
# The Process Group of a Job

One job over any number of bursts, and all the processes of its sandbox: the
wait of `isolateAndRun` with the signals it sends, and whatever the processes
do, which is to fork, to change their process group, to stop and continue one
another or themselves, and to end.

The engine knows one pid, that of the job's main process. It waits for that
process, and it signals the group with that number, which reaches the processes
that are in the group at that moment and no others. The main process starts in
the group of the engine and makes its own on the way to the program.

A process may enter any group but that of the engine, which it does not see,
and a parent may move its child, but the main process has no parent in there.
Only a process that runs does something. The main process is the first of its
pid namespace: no stop from within reaches it, and when it ends, the kernel
kills the others. A stop is reported once. Nobody outside the sandbox but the
engine stops or continues a process, though anybody may kill one.

The state counts the `SIGSTOP`s that were meant for a living main process and
did not reach it; no step reads the count.

## Main definitions

* `Status`: Whether a process is stopped.
* `Proc`: A process as the kernel sees it.
* `Phase`: Where the job is.
* `signalGroup`: A signal to a group.
* `step`: The transition function.
* `Moves`: Its transitions, one by one.
* `init`: The job was never launched.
-/

namespace Isolyx

namespace ProcessGroup

/-- `reported` says that a wait has seen the stop. -/
inductive Status where
  | running
  | stopped (reported : Bool)
  deriving DecidableEq, Repr

/-- A process that has not ended. -/
structure Proc where
  group : Nat
  status : Status
  deriving DecidableEq, Repr

inductive Signal where
  | stop
  | cont
  deriving DecidableEq, Repr

/-- A stopped process is not stopped again. -/
def Signal.act : Signal → Status → Status
  | stop, .running => .stopped false
  | stop, .stopped reported => .stopped reported
  | cont, _ => .running

def Proc.signal (p : Proc) (sig : Signal) : Proc := { p with status := sig.act p.status }

/-- Where the job is. -/
inductive Phase where
  | fresh
  /-- In the wait of `isolateAndRun`, for so many milliseconds. -/
  | waiting (elapsed : Nat)
  /-- `isolateAndRun` returned with `preempted = true`. -/
  | preempted
  /-- `isolateAndRun` returned, and the main process was reaped. -/
  | ended
  deriving DecidableEq, Repr

structure State where
  phase : Phase
  /-- The pid of the main process, and the group that is signalled. -/
  main : Nat
  procs : Nat → Option Proc
  missed : Nat

/-- The group of the engine, which is no pid of the sandbox. -/
def engineGroup : Nat := 0

inductive Action where
  /-- The launch of the main process. -/
  | clone (pid : Nat)
  /-- `kill(-pid, SIGCONT)` at the begin of a burst. -/
  | resume
  /-- A turn of the loop before the quantum has expired. -/
  | sleep
  /-- `kill(-pid, SIGSTOP)`, once it has. -/
  | stopGroup
  /-- `waitpid` reports that the main process is stopped. -/
  | reportStop
  /-- `waitpid` reports that it has ended. -/
  | reportEnd
  /-- `setpgid` or `setsid` of a process, for itself or another one. -/
  | enterGroup (pid target group : Nat)
  | fork (pid child : Nat)
  /-- A process signals another one, or itself. -/
  | signal (pid target : Nat) (sig : Signal)
  /-- A process ends, by itself or killed by whomever. -/
  | exit (pid : Nat)

/-- `kill(-group, sig)`. -/
def signalGroup (procs : Nat → Option Proc) (group : Nat) (sig : Signal) : Nat → Option Proc :=
  fun pid => (procs pid).map fun p => if p.group = group then p.signal sig else p

def setProc (s : State) (pid : Nat) (p : Option Proc) : State :=
  { s with procs := Function.update s.procs pid p }

/-- A process that runs. -/
def State.runs (s : State) (pid : Nat) : Option Proc :=
  (s.procs pid).filter fun p => p.status = .running

/-- One more, if the main process is alive and not in its group. -/
def State.misses (s : State) : Nat :=
  match s.procs s.main with
  | some p => if p.group = s.main then s.missed else s.missed + 1
  | none => s.missed

def step (quantum : Int) (s : State) : Action → Option State
  | .clone pid =>
      if s.phase = .fresh ∧ pid ≠ engineGroup then
        some { setProc s pid (some ⟨engineGroup, .running⟩) with phase := .waiting 0, main := pid }
      else none
  | .resume =>
      if s.phase = .preempted then
        some { s with phase := .waiting 0, procs := signalGroup s.procs s.main .cont }
      else none
  | .sleep => match s.phase with
      | .waiting elapsed =>
          if elapsed < quantum then some { s with phase := .waiting (elapsed + 1) } else none
      | _ => none
  | .stopGroup => match s.phase with
      | .waiting elapsed =>
          -- the clock stands from here on, so every later turn sends it again
          if 0 < quantum ∧ quantum ≤ elapsed then
            some { s with procs := signalGroup s.procs s.main .stop, missed := s.misses }
          else none
      | _ => none
  | .reportStop => match s.phase, s.procs s.main with
      | .waiting _, some p =>
          -- without a quantum the wait does not ask for stops
          if 0 < quantum ∧ p.status = .stopped false then
            some { setProc s s.main (some { p with status := .stopped true }) with
              phase := .preempted }
          else none
      | _, _ => none
  | .reportEnd => match s.phase, s.procs s.main with
      | .waiting _, none => some { s with phase := .ended }
      | _, _ => none
  | .enterGroup pid target group => match s.runs pid with
      | some _ =>
          if group ≠ engineGroup ∧ (target = s.main → target = pid) then
            some (setProc s target ((s.procs target).map fun p => { p with group := group }))
          else none
      | none => none
  | .fork pid child => match s.runs pid with
      | some p =>
          if s.procs child = none ∧ child ≠ engineGroup then some (setProc s child (some p))
          else none
      | none => none
  | .signal pid target sig => match s.runs pid with
      | some _ =>
          -- the first process of a pid namespace ignores a stop from within
          if target = s.main ∧ sig = .stop then some s
          else some (setProc s target ((s.procs target).map fun p => p.signal sig))
      | none => none
  | .exit pid =>
      if pid = s.main then some { s with procs := fun _ => none } else some (setProc s pid none)

/-- The transitions of `step`. -/
inductive Moves (s : State) : Action → State → Prop
  | clones (pid : Nat) (hs : s.phase = .fresh) :
      Moves s (.clone pid)
        { setProc s pid (some ⟨engineGroup, .running⟩) with phase := .waiting 0, main := pid }
  | resumes (hs : s.phase = .preempted) :
      Moves s .resume { s with phase := .waiting 0, procs := signalGroup s.procs s.main .cont }
  | sleeps (elapsed : Nat) (hs : s.phase = .waiting elapsed) :
      Moves s .sleep { s with phase := .waiting (elapsed + 1) }
  | stops (elapsed : Nat) (hs : s.phase = .waiting elapsed) :
      Moves s .stopGroup { s with
        phase := .waiting elapsed, procs := signalGroup s.procs s.main .stop, missed := s.misses }
  | reports (elapsed : Nat) (p : Proc) (hs : s.phase = .waiting elapsed)
      (hm : s.procs s.main = some p) (hp : p.status = .stopped false) :
      Moves s .reportStop { setProc s s.main (some { p with status := .stopped true }) with
        phase := .preempted }
  | ends (elapsed : Nat) (hs : s.phase = .waiting elapsed) :
      Moves s .reportEnd { s with phase := .ended }
  | enters (pid target group : Nat) (p : Proc) (hp : s.runs pid = some p) :
      Moves s (.enterGroup pid target group)
        (setProc s target ((s.procs target).map fun p => { p with group := group }))
  | forks (pid child : Nat) (p : Proc) (hp : s.runs pid = some p) (hc : s.procs child = none) :
      Moves s (.fork pid child) (setProc s child (some p))
  | ignores (pid : Nat) (p : Proc) (hp : s.runs pid = some p) :
      Moves s (.signal pid s.main .stop) s
  | signals (pid target : Nat) (sig : Signal) (p : Proc) (hp : s.runs pid = some p)
      (hne : ¬ (target = s.main ∧ sig = .stop)) :
      Moves s (.signal pid target sig)
        (setProc s target ((s.procs target).map fun p => p.signal sig))
  | dies : Moves s (.exit s.main) { s with procs := fun _ => none }
  | exits (pid : Nat) (hne : pid ≠ s.main) : Moves s (.exit pid) (setProc s pid none)

theorem moves_of_step {quantum : Int} {s t : State} {a : Action}
    (h : step quantum s a = some t) : Moves s a t := by
  cases a with
  | clone pid =>
      simp only [step, Option.ite_none_right_eq_some, Option.some.injEq] at h
      exact h.2 ▸ .clones pid h.1.1
  | resume =>
      simp only [step, Option.ite_none_right_eq_some, Option.some.injEq] at h
      exact h.2 ▸ .resumes h.1
  | sleep =>
      cases hs : s.phase <;> simp only [step, hs, reduceCtorEq, Option.ite_none_right_eq_some,
        Option.some.injEq] at h
      exact h.2 ▸ .sleeps _ hs
  | stopGroup =>
      cases hs : s.phase <;> simp only [step, hs, reduceCtorEq, Option.ite_none_right_eq_some,
        Option.some.injEq] at h
      exact h.2 ▸ .stops _ hs
  | reportStop =>
      cases hs : s.phase <;> simp only [step, hs, reduceCtorEq] at h
      cases hm : s.procs s.main with
      | none => simp only [hm, reduceCtorEq] at h
      | some p =>
          simp only [hm, Option.ite_none_right_eq_some, Option.some.injEq] at h
          exact h.2 ▸ .reports _ p hs hm h.1.2
  | reportEnd =>
      cases hs : s.phase <;> simp only [step, hs, reduceCtorEq] at h
      cases hm : s.procs s.main with
      | none =>
          simp only [hm, Option.some.injEq] at h
          exact h ▸ .ends _ hs
      | some p => simp only [hm, reduceCtorEq] at h
  | enterGroup pid target group =>
      cases hp : s.runs pid <;> simp only [step, hp, reduceCtorEq, Option.ite_none_right_eq_some,
        Option.some.injEq] at h
      exact h.2 ▸ .enters pid target group _ hp
  | fork pid child =>
      cases hp : s.runs pid <;> simp only [step, hp, reduceCtorEq, Option.ite_none_right_eq_some,
        Option.some.injEq] at h
      exact h.2 ▸ .forks pid child _ hp h.1.1
  | signal pid target sig =>
      cases hp : s.runs pid <;> simp only [step, hp, reduceCtorEq] at h
      split at h
      · rename_i hmain
        rw [hmain.1, hmain.2]
        exact Option.some.inj h ▸ .ignores pid _ hp
      · rename_i hne
        exact Option.some.inj h ▸ .signals pid target sig _ hp hne
  | exit pid =>
      simp only [step] at h
      split at h
      · rename_i hpid
        rw [hpid]
        exact Option.some.inj h ▸ .dies
      · rename_i hpid
        exact Option.some.inj h ▸ .exits pid hpid

/-- The job was never launched. -/
def init : State where
  phase := .fresh
  main := engineGroup
  procs := fun _ => none
  missed := 0

end ProcessGroup

end Isolyx
