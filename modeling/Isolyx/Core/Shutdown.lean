import Isolyx.Core.Pool

/-!
# Stopping the Queue in Two Steps

`InMemoryJobQueue::stop` sets `stopping_` in a critical section and calls
`notify_all` after it, when the mutex is released. Other threads may move
between the two, so here they are two steps of the thread that stops the pool;
every other step is the one of the pool.

## Main definitions

* `Action`: A step of the pool, or one of the two.
* `step`: The transition function.
* `Moves`: Its transitions.
-/

namespace Isolyx

namespace Shutdown

open Pool (State)

inductive Action (n : Nat) where
  | pool (a : Pool.Action n)
  /-- The critical section of `InMemoryJobQueue::stop`. -/
  | setStopping
  /-- `notify_all`, with which it returns. -/
  | notifyAll

variable {n : Nat}

def step (sched : Scheduler) (s : State n) : Action n → Option (State n)
  | .pool .stopQueue => none
  | .pool a => Pool.step sched s a
  | .setStopping =>
      if s.stopper = .flagged ∧ s.stopping = false then some { s with stopping := true } else none
  | .notifyAll =>
      if s.stopper = .flagged ∧ s.stopping = true then
        some { s with stopper := .joining, workers := Pool.notifyAll s.workers }
      else none

inductive Moves (sched : Scheduler) (s : State n) : Action n → State n → Prop
  | pools (a : Pool.Action n) (t : State n) (ha : a ≠ .stopQueue)
      (h : Pool.Moves sched s a t) : Moves sched s (.pool a) t
  | sets (hs : s.stopper = .flagged) (hq : s.stopping = false) :
      Moves sched s .setStopping { s with stopping := true }
  | notifies (hs : s.stopper = .flagged) (hq : s.stopping = true) :
      Moves sched s .notifyAll
        { s with stopper := .joining, workers := Pool.notifyAll s.workers }

theorem moves_of_step {sched : Scheduler} {s t : State n} {a : Action n}
    (h : step sched s a = some t) : Moves sched s a t := by
  cases a with
  | pool a =>
      by_cases ha : a = .stopQueue
      · subst ha
        simp only [step, reduceCtorEq] at h
      · have hp : Pool.step sched s a = some t := by
          cases a <;> first | exact h | exact absurd rfl ha
        exact .pools a t ha (Pool.moves_of_step hp)
  | setStopping =>
      simp only [step, Option.ite_none_right_eq_some, Option.some.injEq] at h
      exact h.2 ▸ .sets h.1.1 h.1.2
  | notifyAll =>
      simp only [step, Option.ite_none_right_eq_some, Option.some.injEq] at h
      exact h.2 ▸ .notifies h.1.1 h.1.2

end Shutdown

end Isolyx
