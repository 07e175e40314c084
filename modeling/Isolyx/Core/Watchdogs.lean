import Isolyx.Library.Run
import Mathlib.Logic.Function.Basic
import Mathlib.Tactic.Common

/-!
# Watchdogs and the Wait

The worker in `isolateAndRun` with the threads of the watchdogs it started: a
`CompositeWatchdog` with any number of `TimeoutWatchdog`s and
`AnomalyWatchdog`s in it, for one child, from the launch to the destruction of
the watchdogs at the end of the burst. An action is one step of the worker, of
a watchdog's thread, or of the child. Time does not appear: a timer may run
out whenever its thread is in the wait.

The two kinds differ in what they hold while they kill. A `TimeoutWatchdog`
finds its time up in `wait_for`, which returns with the mutex locked, and the
two calls of `kill` come before it is released, so that `stop` waits for them.
An `AnomalyWatchdog` releases the mutex before it samples, and `stop` waits
for it only in `join`.

The child is reaped once, by the wait of this burst or, after a preemption, by
that of a later one, whose own watchdogs were never started. A pid may belong
to another process from then on, so a sample may show anything. The wait does
not fail: nobody else reaps the child, and no handler interrupts it.

## Main definitions

* `Thread`: Where a watchdog's thread is.
* `Phase`: Where the worker is.
* `Signal`: A call of `kill` by a watchdog.
* `step`: The transition function.
* `Moves`: Its transitions, one by one.
* `init`: The child is cloned, or resumed.
-/

namespace Isolyx

namespace Watchdogs

inductive Kind where
  | timeout
  | anomaly
  deriving DecidableEq, Repr

/-- Where a watchdog's thread is. -/
inductive Thread where
  /-- `start` was not called. -/
  | absent
  /-- In `cv_.wait_for`, or on the way there; it does not hold the mutex. -/
  | waiting
  /-- `AnomalyWatchdog`: past the wait, about to read the system call. -/
  | sampling
  /-- About to call `kill(-target_pid_, SIGKILL)`. -/
  | firing
  /-- About to call `kill(target_pid_, SIGKILL)`. -/
  | firedGroup
  | finished
  deriving DecidableEq, Repr

/-- On its way to a call of `kill`. -/
def Thread.aiming : Thread → Bool
  | firing | firedGroup => true
  | _ => false

/-- The thread has nothing to do any more. -/
def Thread.over : Thread → Bool
  | absent | finished => true
  | _ => false

inductive Child where
  | running
  | stopped
  | zombie
  | reaped
  deriving DecidableEq, Repr

/-- Where the worker is. -/
inductive Phase where
  /-- In `CompositeWatchdog::start`, at a watchdog. -/
  | starting (i : Nat)
  /-- In the wait. -/
  | waiting
  /-- In `CompositeWatchdog::stop`, or in the destructor, before a watchdog's mutex. -/
  | stopping (destroying : Bool) (i : Nat)
  /-- In the same, joining a watchdog's thread. -/
  | joining (destroying : Bool) (i : Nat)
  /-- The watchdogs are destroyed. -/
  | done
  deriving DecidableEq, Repr

/-- A call of `kill` by a watchdog; `late` says that the child was reaped by then. -/
structure Signal (n : Nat) where
  watchdog : Fin n
  group : Bool
  late : Bool
  deriving DecidableEq, Repr

structure State (n : Nat) where
  phase : Phase
  child : Child
  threads : Fin n → Thread
  /-- `running_` of each watchdog. -/
  running : Fin n → Bool
  sent : List (Signal n)

inductive Action (n : Nat) where
  | start
  /-- The wait that blocks. -/
  | waitpid
  /-- One turn of the loop that waits without blocking. -/
  | poll
  | stop
  | join
  /-- The wait of a later burst. -/
  | reapLater
  /-- A watchdog's thread tests `running_` and finds it cleared. -/
  | leave (i : Fin n)
  /-- Its time is up and `running_` is set. -/
  | expire (i : Fin n)
  | sample (i : Fin n) (suspicious : Bool)
  | killGroup (i : Fin n)
  | killPid (i : Fin n)
  | childEnds
  | childStops
  | childContinues
  deriving DecidableEq, Repr

variable {n : Nat}

/-- The thread holds the watchdog's mutex. -/
def locked (kinds : Fin n → Kind) (s : State n) (i : Fin n) : Bool :=
  kinds i = .timeout && (s.threads i).aiming

def setThread (s : State n) (i : Fin n) (v : Thread) : State n :=
  { s with threads := Function.update s.threads i v }

/-- `kill` as a watchdog calls it. -/
def signal (s : State n) (i : Fin n) (group : Bool) : State n :=
  { s with sent := s.sent ++ [⟨i, group, s.child = .reaped⟩] }

def step (kinds : Fin n → Kind) (polling : Bool) (s : State n) : Action n → Option (State n)
  | .start => match s.phase with
      | .starting k =>
          if h : k < n then some { setThread s ⟨k, h⟩ .waiting with
            phase := .starting (k + 1)
            running := Function.update s.running ⟨k, h⟩ true }
          else some { s with phase := .waiting }
      | _ => none
  | .waitpid => match s.phase, polling, s.child with
      | .waiting, false, .zombie =>
          some { s with phase := .stopping false 0, child := .reaped }
      | _, _, _ => none
  | .poll => match s.phase, polling, s.child with
      | .waiting, true, .zombie =>
          some { s with phase := .stopping false 0, child := .reaped }
      -- a preempted burst returns without a call of `stop`
      | .waiting, true, .stopped => some { s with phase := .stopping true 0 }
      | .waiting, true, _ => some s
      | _, _, _ => none
  | .stop => match s.phase with
      | .stopping destroying k =>
          if h : k < n then
            if locked kinds s ⟨k, h⟩ then none
            else if s.running ⟨k, h⟩ then some { s with
              phase := .joining destroying k
              running := Function.update s.running ⟨k, h⟩ false }
            else some { s with phase := .stopping destroying (k + 1) }
          else some { s with phase := if destroying then .done else .stopping true 0 }
      | _ => none
  | .join => match s.phase with
      | .joining destroying k =>
          if h : k < n then
            if s.threads ⟨k, h⟩ = .finished then
              some { s with phase := .stopping destroying (k + 1) }
            else none
          else none
      | _ => none
  | .reapLater => match s.phase, s.child with
      | .done, .zombie => some { s with child := .reaped }
      | _, _ => none
  | .leave i =>
      if s.threads i = .waiting ∧ s.running i = false then some (setThread s i .finished) else none
  | .expire i =>
      if s.threads i = .waiting ∧ s.running i = true then
        match kinds i with
        | .timeout => some (setThread s i .firing)
        | .anomaly => some (setThread s i .sampling)
      else none
  | .sample i suspicious =>
      if s.threads i = .sampling then
        some (setThread s i (if suspicious then .firing else .waiting))
      else none
  | .killGroup i =>
      if s.threads i = .firing then some (signal (setThread s i .firedGroup) i true) else none
  | .killPid i =>
      if s.threads i = .firedGroup then some (signal (setThread s i .finished) i false) else none
  | .childEnds =>
      if s.child = .running ∨ s.child = .stopped then some { s with child := .zombie } else none
  | .childStops =>
      -- only the loop that polls sends `SIGSTOP`
      if s.child = .running ∧ s.phase = .waiting ∧ polling = true then
        some { s with child := .stopped }
      else none
  | .childContinues => if s.child = .stopped then some { s with child := .running } else none

/-- The transitions of `step`, one constructor for each outcome of an action. -/
inductive Moves (kinds : Fin n → Kind) (s : State n) : Action n → State n → Prop
  | starts (i : Fin n) (hp : s.phase = .starting i) :
      Moves kinds s .start { setThread s i .waiting with
        phase := .starting (i + 1), running := Function.update s.running i true }
  | started (k : Nat) (hp : s.phase = .starting k) :
      Moves kinds s .start { s with phase := .waiting }
  | waits (hp : s.phase = .waiting) (hc : s.child = .zombie) :
      Moves kinds s .waitpid { s with phase := .stopping false 0, child := .reaped }
  | pollsEnd (hp : s.phase = .waiting) (hc : s.child = .zombie) :
      Moves kinds s .poll { s with phase := .stopping false 0, child := .reaped }
  | pollsStop (hp : s.phase = .waiting) (hc : s.child = .stopped) :
      Moves kinds s .poll { s with phase := .stopping true 0 }
  | pollsOn (hp : s.phase = .waiting) (hc : s.child ≠ .zombie) : Moves kinds s .poll s
  | clears (destroying : Bool) (i : Fin n) (hp : s.phase = .stopping destroying i)
      (hl : locked kinds s i = false) (hr : s.running i = true) :
      Moves kinds s .stop { s with
        phase := .joining destroying i, running := Function.update s.running i false }
  | skips (destroying : Bool) (i : Fin n) (hp : s.phase = .stopping destroying i)
      (hr : s.running i = false) :
      Moves kinds s .stop { s with phase := .stopping destroying (i + 1) }
  | stopped (destroying : Bool) (k : Nat) (hp : s.phase = .stopping destroying k) (hk : n ≤ k) :
      Moves kinds s .stop { s with phase := if destroying then .done else .stopping true 0 }
  | joins (destroying : Bool) (i : Fin n) (hp : s.phase = .joining destroying i)
      (ht : s.threads i = .finished) :
      Moves kinds s .join { s with phase := .stopping destroying (i + 1) }
  | reapsLater (hp : s.phase = .done) (hc : s.child = .zombie) :
      Moves kinds s .reapLater { s with child := .reaped }
  | leaves (i : Fin n) (ht : s.threads i = .waiting) (hr : s.running i = false) :
      Moves kinds s (.leave i) (setThread s i .finished)
  | timesOut (i : Fin n) (ht : s.threads i = .waiting) (hr : s.running i = true)
      (hk : kinds i = .timeout) : Moves kinds s (.expire i) (setThread s i .firing)
  | turns (i : Fin n) (ht : s.threads i = .waiting) (hr : s.running i = true)
      (hk : kinds i = .anomaly) : Moves kinds s (.expire i) (setThread s i .sampling)
  | suspects (i : Fin n) (ht : s.threads i = .sampling) :
      Moves kinds s (.sample i true) (setThread s i .firing)
  | acquits (i : Fin n) (ht : s.threads i = .sampling) :
      Moves kinds s (.sample i false) (setThread s i .waiting)
  | killsGroup (i : Fin n) (ht : s.threads i = .firing) :
      Moves kinds s (.killGroup i) (signal (setThread s i .firedGroup) i true)
  | killsPid (i : Fin n) (ht : s.threads i = .firedGroup) :
      Moves kinds s (.killPid i) (signal (setThread s i .finished) i false)
  | childEnds (hc : s.child = .running ∨ s.child = .stopped) :
      Moves kinds s .childEnds { s with child := .zombie }
  | childStops (hc : s.child = .running) (hp : s.phase = .waiting) :
      Moves kinds s .childStops { s with child := .stopped }
  | childContinues (hc : s.child = .stopped) :
      Moves kinds s .childContinues { s with child := .running }

theorem moves_of_step {kinds : Fin n → Kind} {polling : Bool} {s t : State n} {a : Action n}
    (h : step kinds polling s a = some t) : Moves kinds s a t := by
  cases a with
  | start =>
      cases hp : s.phase <;> simp only [step, hp, reduceCtorEq] at h
      rename_i k
      split at h
      · rename_i hk
        exact Option.some.inj h ▸ .starts ⟨k, hk⟩ hp
      · exact Option.some.inj h ▸ .started k hp
  | waitpid =>
      cases hp : s.phase <;> cases polling <;> cases hc : s.child <;>
        simp only [step, hp, hc, reduceCtorEq, Option.some.injEq] at h
      exact h ▸ .waits hp hc
  | poll =>
      cases hp : s.phase <;> cases polling <;> cases hc : s.child <;>
        simp only [step, hp, hc, reduceCtorEq, Option.some.injEq] at h
      · exact h ▸ .pollsOn hp (by simp only [hc, ne_eq, reduceCtorEq, not_false_eq_true])
      · rw [← h, ← hc]
        exact .pollsStop hp hc
      · exact h ▸ .pollsEnd hp hc
      · exact h ▸ .pollsOn hp (by simp only [hc, ne_eq, reduceCtorEq, not_false_eq_true])
  | stop =>
      cases hp : s.phase <;> simp only [step, hp, reduceCtorEq] at h
      rename_i destroying k
      split at h
      · rename_i hk
        rw [Option.ite_none_left_eq_some, Bool.not_eq_true] at h
        rcases h with ⟨hl, h⟩
        split at h
        · rename_i hr
          exact Option.some.inj h ▸ .clears destroying ⟨k, hk⟩ hp hl hr
        · rename_i hr
          exact Option.some.inj h ▸ .skips destroying ⟨k, hk⟩ hp (Bool.eq_false_iff.mpr hr)
      · rename_i hk
        exact Option.some.inj h ▸ .stopped destroying k hp (Nat.le_of_not_lt hk)
  | join =>
      cases hp : s.phase <;> simp only [step, hp, reduceCtorEq] at h
      rename_i destroying k
      split at h
      · rename_i hk
        rw [Option.ite_none_right_eq_some, Option.some.injEq] at h
        exact h.2 ▸ .joins destroying ⟨k, hk⟩ hp h.1
      · simp only [reduceCtorEq] at h
  | reapLater =>
      cases hp : s.phase <;> cases hc : s.child <;>
        simp only [step, hp, hc, reduceCtorEq, Option.some.injEq] at h
      rw [← h, ← hp]
      exact .reapsLater hp hc
  | leave i =>
      simp only [step, Option.ite_none_right_eq_some, Option.some.injEq] at h
      exact h.2 ▸ .leaves i h.1.1 h.1.2
  | expire i =>
      simp only [step, Option.ite_none_right_eq_some] at h
      rcases h with ⟨⟨ht, hr⟩, h⟩
      cases hk : kinds i with
      | timeout =>
          simp only [hk, Option.some.injEq] at h
          exact h ▸ .timesOut i ht hr hk
      | anomaly =>
          simp only [hk, Option.some.injEq] at h
          exact h ▸ .turns i ht hr hk
  | sample i suspicious =>
      simp only [step, Option.ite_none_right_eq_some, Option.some.injEq] at h
      cases suspicious with
      | true => exact h.2 ▸ .suspects i h.1
      | false => exact h.2 ▸ .acquits i h.1
  | killGroup i =>
      simp only [step, Option.ite_none_right_eq_some, Option.some.injEq] at h
      exact h.2 ▸ .killsGroup i h.1
  | killPid i =>
      simp only [step, Option.ite_none_right_eq_some, Option.some.injEq] at h
      exact h.2 ▸ .killsPid i h.1
  | childEnds =>
      simp only [step, Option.ite_none_right_eq_some, Option.some.injEq] at h
      exact h.2 ▸ .childEnds h.1
  | childStops =>
      simp only [step, Option.ite_none_right_eq_some, Option.some.injEq] at h
      exact h.2 ▸ .childStops h.1.1 h.1.2.1
  | childContinues =>
      simp only [step, Option.ite_none_right_eq_some, Option.some.injEq] at h
      exact h.2 ▸ .childContinues h.1

/-- The child exists. A burst that launched it is about to start the watchdogs,
    one that resumed it is in the wait. -/
def init (n : Nat) (launched : Bool) : State n where
  phase := if launched then .starting 0 else .waiting
  child := .running
  threads := fun _ => .absent
  running := fun _ => false
  sent := []

end Watchdogs

end Isolyx
