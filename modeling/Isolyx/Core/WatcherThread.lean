import Isolyx.Core.Watchdogs

/-!
# A Watchdog's Thread

`TimeoutWatchdog` and `AnomalyWatchdog` down to the mutex and the condition
variable: `start`, `stop`, the destructors and the lambda that is the thread.
`Core.Watchdogs` has what the watchdogs do to a child; there the wait and the
stop are one step each, and here they are taken apart.

There are any number of watchdogs of either kind. They have one owner, a worker
that calls their functions one after the other, which is all that
`CompositeWatchdog` does with those it holds: its `start` and `stop` go over
them in order, and its destructor destroys them. A watchdog is started at most
once, and before it is stopped.

`wait_for` with a predicate is the loop that the library documents: while the
predicate is false it waits, and after a wait whose time ran out it returns
what the predicate is then. A wait gives the mutex up and takes it again at its
end, which comes with a notification, with the time, or for no reason at all.
`notify_one` wakes a thread that waits, and is lost on any other.

An object that is destroyed with a joinable thread ends the program. Here it
merely is destroyed, and that it is not joinable is for `Theory.Quiescence`.

## Main definitions

* `Thread`: Where a watchdog's thread is.
* `Pc`: Where the owner is in a call of `stop`.
* `Object`: A watchdog.
* `threadStep`: One step of the thread.
* `ownerStep`: One step of `stop`.
* `step`: The transition function.
* `Moves`: Its transitions, one by one.
* `init`: The watchdogs were made.
-/

namespace Isolyx

namespace WatcherThread

open Watchdogs (Kind)

inductive Kill where
  /-- `kill(-target_pid_, SIGKILL)`. -/
  | group
  /-- `kill(target_pid_, SIGKILL)`. -/
  | pid
  deriving DecidableEq, Repr

inductive Holder where
  | owner
  | watcher
  deriving DecidableEq, Repr

/-- Where a watchdog's thread is. -/
inductive Thread where
  | absent
  /-- About to lock the mutex, at the beginning of the lambda or of a turn. -/
  | locking
  /-- In `wait_for`, with the mutex, about to evaluate the predicate; the time
      has run out or not. -/
  | testing (timedOut : Bool)
  /-- Waiting for the condition variable. -/
  | asleep
  /-- Woken up, and about to take the mutex again. -/
  | waking (timedOut : Bool)
  /-- `wait_for` has returned false. -/
  | expired
  /-- `AnomalyWatchdog`: about to look at `target_pid_` and its system call. -/
  | sampling
  | firing
  /-- Between the two kills. -/
  | fired
  /-- About to give the mutex up for good. -/
  | leaving
  | ended
  deriving DecidableEq, Repr

/-- `cv_.notify_one()`. -/
def Thread.notify : Thread → Thread
  | asleep => waking false
  | t => t

/-- Where the owner is in a call of `stop`. -/
inductive Pc where
  | locking
  /-- With the mutex, about to test `running_`. -/
  | testing
  /-- `running_` is false. -/
  | unlocking
  | notifying
  | joining
  deriving DecidableEq, Repr

/-- A watchdog. -/
structure Object where
  target : Int
  running : Bool
  mutex : Option Holder
  thread : Thread
  /-- `watcher_thread_.joinable()`. -/
  joinable : Bool
  sent : List Kill
  /-- A function of it was called. -/
  touched : Bool
  /-- A `stop` has returned. -/
  stopped : Bool
  destroyed : Bool
  deriving DecidableEq, Repr

/-- The object is made. -/
def Object.new : Object where
  target := -1
  running := false
  mutex := none
  thread := .absent
  joinable := false
  sent := []
  touched := false
  stopped := false
  destroyed := false

/-- `start`: the thread is there when it returns. -/
def Object.start (o : Object) (pid : Int) : Object :=
  { o with target := pid, running := true, thread := .locking, joinable := true, touched := true }

/-- One step of the thread. What it finds when it samples is open. -/
def threadStep (kind : Kind) (o : Object) (suspicious : Bool) : Option Object :=
  match o.thread with
  | .absent | .asleep | .ended => none
  | .locking =>
      if o.mutex = none then some { o with mutex := some .watcher, thread := .testing false }
      else none
  | .testing timedOut =>
      if !o.running then some { o with thread := .leaving }
      else if timedOut then some { o with thread := .expired }
      else some { o with mutex := none, thread := .asleep }
  | .waking timedOut =>
      if o.mutex = none then some { o with mutex := some .watcher, thread := .testing timedOut }
      else none
  | .expired => match kind with
      | .timeout => some { o with thread := if 0 < o.target then .firing else .leaving }
      -- the lock goes out of scope
      | .anomaly => some { o with mutex := none, thread := .sampling }
  | .sampling =>
      some { o with thread :=
        if o.target ≤ 0 then .ended else if suspicious then .firing else .locking }
  | .firing => some { o with thread := .fired, sent := o.sent ++ [.group] }
  | .fired => match kind with
      | .timeout => some { o with thread := .leaving, sent := o.sent ++ [.pid] }
      | .anomaly => some { o with thread := .ended, sent := o.sent ++ [.pid] }
  | .leaving => some { o with mutex := none, thread := .ended }

/-- One step of `stop`, and where it leads; without a place to go on it returns. -/
def ownerStep (o : Object) : Pc → Option (Object × Option Pc)
  | .locking =>
      if o.mutex = none then some ({ o with mutex := some .owner }, some .testing) else none
  | .testing =>
      if !o.running then some ({ o with mutex := none }, none)
      else some ({ o with running := false }, some .unlocking)
  | .unlocking => some ({ o with mutex := none }, some .notifying)
  | .notifying => some ({ o with thread := o.thread.notify }, some .joining)
  | .joining =>
      if !o.joinable then some (o, none)
      else if o.thread = .ended then some ({ o with joinable := false }, none)
      else none

/-- The owner is in `stop` of one of the watchdogs, called by itself or by the
    destructor. -/
structure Call (n : Nat) where
  object : Fin n
  destroying : Bool
  pc : Pc
  deriving DecidableEq, Repr

structure State (n : Nat) where
  objects : Fin n → Object
  call : Option (Call n)

inductive Action (n : Nat) where
  | start (i : Fin n) (pid : Int)
  | stop (i : Fin n)
  /-- The destructor is called. -/
  | destroy (i : Fin n)
  /-- The owner goes on in the call it is in. -/
  | owner
  /-- The thread of a watchdog goes on. -/
  | thread (i : Fin n) (suspicious : Bool)
  /-- A wait ends without a notification. -/
  | wake (i : Fin n) (timedOut : Bool)
  deriving DecidableEq, Repr

variable {n : Nat}

def setObject (s : State n) (i : Fin n) (o : Object) : State n :=
  { s with objects := Function.update s.objects i o }

/-- The owner enters `stop`. -/
def enter (s : State n) (i : Fin n) (destroying : Bool) : Option (State n) :=
  if s.call = none ∧ (s.objects i).destroyed = false then
    some { setObject s i { s.objects i with touched := true } with
      call := some ⟨i, destroying, .locking⟩ }
  else none

/-- The owner is in `stop` of a watchdog, which leads on or returns. -/
def proceed (s : State n) (c : Call n) : Object × Option Pc → State n
  | (o, some pc) => { setObject s c.object o with call := some { c with pc := pc } }
  | (o, none) =>
      { setObject s c.object { o with stopped := true, destroyed := c.destroying } with
        call := none }

def step (kinds : Fin n → Kind) (s : State n) : Action n → Option (State n)
  | .start i pid =>
      if s.call = none ∧ (s.objects i).touched = false then
        some (setObject s i ((s.objects i).start pid))
      else none
  | .stop i => enter s i false
  | .destroy i => enter s i true
  | .owner => s.call.bind fun c => (ownerStep (s.objects c.object) c.pc).map (proceed s c)
  | .thread i suspicious =>
      (threadStep (kinds i) (s.objects i) suspicious).map (setObject s i)
  | .wake i timedOut =>
      if (s.objects i).thread = .asleep then
        some (setObject s i { s.objects i with thread := .waking timedOut })
      else none

/-- The steps, one by one. -/
inductive Moves (kinds : Fin n → Kind) (s : State n) : Action n → State n → Prop
  | starts (i : Fin n) (pid : Int) (hc : s.call = none) (ht : (s.objects i).touched = false) :
      Moves kinds s (.start i pid) (setObject s i ((s.objects i).start pid))
  | enters (i : Fin n) (destroying : Bool) (hc : s.call = none)
      (hd : (s.objects i).destroyed = false) :
      Moves kinds s (if destroying then .destroy i else .stop i)
        { setObject s i { s.objects i with touched := true } with
          call := some ⟨i, destroying, .locking⟩ }
  | proceeds (c : Call n) (o : Object) (pc : Option Pc) (hc : s.call = some c)
      (ho : ownerStep (s.objects c.object) c.pc = some (o, pc)) :
      Moves kinds s .owner (proceed s c (o, pc))
  | runs (i : Fin n) (suspicious : Bool) (o : Object)
      (ho : threadStep (kinds i) (s.objects i) suspicious = some o) :
      Moves kinds s (.thread i suspicious) (setObject s i o)
  | wakes (i : Fin n) (timedOut : Bool) (ht : (s.objects i).thread = .asleep) :
      Moves kinds s (.wake i timedOut)
        (setObject s i { s.objects i with thread := .waking timedOut })

theorem moves_of_step {kinds : Fin n → Kind} {s t : State n} {a : Action n}
    (h : step kinds s a = some t) : Moves kinds s a t := by
  cases a with
  | start i pid =>
      simp only [step, Option.ite_none_right_eq_some, Option.some.injEq] at h
      exact h.2 ▸ .starts i pid h.1.1 h.1.2
  | stop i =>
      simp only [step, enter, Option.ite_none_right_eq_some, Option.some.injEq] at h
      exact h.2 ▸ .enters i false h.1.1 h.1.2
  | destroy i =>
      simp only [step, enter, Option.ite_none_right_eq_some, Option.some.injEq] at h
      exact h.2 ▸ .enters i true h.1.1 h.1.2
  | owner =>
      simp only [step, Option.bind_eq_some_iff, Option.map_eq_some_iff] at h
      rcases h with ⟨c, hc, ⟨o, pc⟩, ho, rfl⟩
      exact .proceeds c o pc hc ho
  | thread i suspicious =>
      simp only [step, Option.map_eq_some_iff] at h
      rcases h with ⟨o, ho, rfl⟩
      exact .runs i suspicious o ho
  | wake i timedOut =>
      simp only [step, Option.ite_none_right_eq_some, Option.some.injEq] at h
      exact h.2 ▸ .wakes i timedOut h.1

/-- The watchdogs were made. -/
def init (n : Nat) : State n where
  objects := fun _ => .new
  call := none

end WatcherThread

end Isolyx
