import Isolyx.Core.Shutdown
import Isolyx.Library.Tally

/-!
# No Lost Wake-Up

Why `InMemoryJobQueue` may issue one notification for each job. The worker a
notification wakes need not be the one that takes the job: a worker that comes
from the head of its loop may take the mutex first, and the one that was woken
finds the deque empty and blocks again. So notifications and jobs are not
matched one to one.

What is matched is the number of workers on their way into the critical section
of `dequeue`: as long as some worker is blocked, there are at least as many of
these as there are jobs in the deque. A new job adds one to both, since a
blocked worker is woken for it; a worker that takes a job subtracts one from
both; and a worker blocks only when there is no job (`awake_moves`).

After the stop, what counts is that a worker tests `stopping_` in the same
critical section in which it decides to block. Once the flag is set nobody
blocks anew, and the notification that follows reaches everybody who did.

## Main definitions

* `ready`: How many workers are on their way to take a job.
* `Awake`: A job in the deque has a worker on its way, if any is blocked.
* `Released`: Nobody is blocked once the queue's `stop` has returned.
* `NoLostWakeup`: No wake-up is lost.

## Theorems

* `awake_moves`: A step of the pool keeps the balance.
* `released_moves`: Nobody blocks on a stopped queue.
* `no_lost_wakeup`: No interleaving loses a wake-up.
-/

namespace Isolyx

namespace Shutdown

open Pool (State Worker setWorker notifyOne)
open Threads (tally tally_update exists_of_tally_pos)

variable {n : Nat} {sched : Scheduler} {s t : State n}

/-- The worker is about to take the mutex and test the predicate. -/
def isReady (v : Worker) : Nat := if v = .dequeuing then 1 else 0

def ready (ws : Fin n → Worker) : Nat := tally isReady ws

/-- As long as a worker is blocked, the jobs in the deque have workers on their way. -/
def Awake (s : State n) : Prop :=
  (∃ w, s.workers w = .waiting) → s.jobs.length ≤ ready s.workers

/-- The queue is stopped before its `stop` returns, and nobody is blocked after. -/
structure Released (s : State n) : Prop where
  early : s.stopper = .notCalled → s.stopping = false
  late : s.stopper = .joining ∨ s.stopper = .returned →
    s.stopping = true ∧ ∀ w, s.workers w ≠ .waiting

/-- No wake-up is lost. -/
structure NoLostWakeup (s : State n) : Prop where
  /-- While a worker is blocked and the deque holds a job, another worker is on
      its way to take one. -/
  awake : s.jobs ≠ [] → (∃ w, s.workers w = .waiting) → ∃ x, s.workers x = .dequeuing
  /-- So not all workers are blocked. -/
  unblocked : s.jobs ≠ [] → 0 < n → ∃ w, s.workers w ≠ .waiting
  /-- The queue's `stop` has returned. -/
  released : s.stopper = .joining ∨ s.stopper = .returned → ∀ w, s.workers w ≠ .waiting

/-- A worker that is not blocked moves to where it is not blocked. -/
theorem Awake.setWorker (hs : Awake s) {w : Fin n} {v : Worker} (hv : v ≠ .waiting)
    (hready : isReady (s.workers w) ≤ isReady v) : Awake (setWorker s w v) := by
  rintro ⟨x, hx⟩
  rw [Pool.workers_setWorker] at hx
  have hxw : x ≠ w := by
    intro heq
    rw [if_pos heq] at hx
    exact hv hx
  rw [if_neg hxw] at hx
  have hlen := hs ⟨x, hx⟩
  have hu := tally_update isReady s.workers w v
  simp only [Pool.setWorker, ready] at hlen ⊢
  omega

/-- A job is added and the notification for it is issued. -/
theorem Awake.notifyOne {jobs : List Job} {ws ws' : Fin n → Worker} {wake : Option (Fin n)}
    (hs : (∃ w, ws w = .waiting) → jobs.length ≤ ready ws)
    (h : notifyOne ws wake = some ws') (job : Job) :
    (∃ w, ws' w = .waiting) → (jobs ++ [job]).length ≤ ready ws' := by
  intro hw
  cases wake with
  | none =>
      -- nobody was blocked, so nobody is
      simp only [Pool.notifyOne, Option.ite_none_left_eq_some, Option.some.injEq] at h
      exact absurd (h.2 ▸ hw) h.1
  | some x =>
      simp only [Pool.notifyOne, Option.ite_none_right_eq_some, Option.some.injEq] at h
      have hlen := hs ⟨x, h.1⟩
      have hu := tally_update isReady ws x .dequeuing
      rw [← h.2, List.length_append, List.length_singleton]
      simp only [h.1, isReady, reduceCtorEq, if_false, if_true, ready] at hu hlen ⊢
      omega

theorem awake_moves {a : Pool.Action n} (hs : Awake s) (h : Pool.Moves sched s a t) :
    Awake t := by
  cases h with
  | enqueues sub wake ws hnew hwake => exact Awake.notifyOne hs hwake sub.job
  | requeues w job wake ws hw hwake =>
      -- the worker leaves its job in the deque and goes back to the head of the loop
      have hat := hs.setWorker (w := w) (v := .atLoopHead) (by simp only [ne_eq, reduceCtorEq,
        not_false_eq_true]) (by rw [hw]; exact Nat.le_refl 0)
      exact Awake.notifyOne hat hwake _
  | blocks w hw hj hq => exact fun _ => hj ▸ Nat.zero_le _
  | departs w hw hj hq => exact fun _ => hj ▸ Nat.zero_le _
  | takes w job rest hw hg =>
      rintro ⟨x, hx⟩
      rw [Pool.workers_setWorker] at hx
      by_cases hxw : x = w
      · rw [if_pos hxw] at hx
        simp only [reduceCtorEq] at hx
      · rw [if_neg hxw] at hx
        -- one job less, and one worker less on its way
        have hlen := hs ⟨x, hx⟩
        have hperm := (Scheduler.getNextJob_perm hg).length_eq
        have hu := tally_update isReady s.workers w (.executing job)
        simp only [hw, isReady, reduceCtorEq, if_false, if_true, List.length_cons] at hu hperm
        simp only [Pool.setWorker, ready] at hlen ⊢
        omega
  | stops hq =>
      rintro ⟨x, hx⟩
      simp only [Pool.notifyAll] at hx
      split at hx
      · simp only [reduceCtorEq] at hx
      · rename_i hne
        exact absurd hx hne
  | clears hq | joins hq hw => exact hs
  | breaks w job res p hw | pays w job res p hw | files w job res hw | reports w job res hw
    | ends w job hw | enters w hw | leaves w hw | wakes w hw | preempts w job res pid uid hw
    | finishes w job res pid uid hw | passes w job res hw =>
      exact hs.setWorker (by simp only [ne_eq, reduceCtorEq, not_false_eq_true])
        (by rw [hw]; simp only [isReady, reduceCtorEq, if_false, Nat.zero_le])

/-- A notification blocks nobody. -/
theorem waiting_of_notifyOne {ws ws' : Fin n → Worker} {wake : Option (Fin n)}
    (h : notifyOne ws wake = some ws') {x : Fin n} (hx : ws' x = .waiting) :
    ws x = .waiting := by
  cases wake with
  | none =>
      simp only [Pool.notifyOne, Option.ite_none_left_eq_some, Option.some.injEq] at h
      exact h.2 ▸ hx
  | some w =>
      simp only [Pool.notifyOne, Option.ite_none_right_eq_some, Option.some.injEq] at h
      rw [← h.2] at hx
      by_cases hxw : x = w
      · rw [hxw]
        exact h.1
      · rwa [Function.update_of_ne hxw] at hx

/-- A worker that moves to where it is not blocked blocks nobody. -/
theorem waiting_of_setWorker {w x : Fin n} {v : Worker} (hv : v ≠ .waiting)
    (hx : (setWorker s w v).workers x = .waiting) : s.workers x = .waiting := by
  rw [Pool.workers_setWorker] at hx
  split at hx
  · exact absurd hx hv
  · exact hx

theorem Released.keep (hs : Released s) (hstopper : t.stopper = s.stopper)
    (hstopping : t.stopping = s.stopping)
    (hw : s.stopping = true → ∀ x, t.workers x = .waiting → s.workers x = .waiting) :
    Released t where
  early ht := hstopping.trans (hs.early (hstopper ▸ ht))
  late ht := by
    have hlate := hs.late (hstopper ▸ ht)
    exact ⟨hstopping.trans hlate.1, fun x hx => hlate.2 x (hw hlate.1 x hx)⟩

theorem released_moves {a : Pool.Action n} (hs : Released s) (h : Pool.Moves sched s a t)
    (ha : a ≠ .stopQueue) : Released t := by
  cases h with
  | enqueues sub wake ws hnew hwake =>
      exact hs.keep rfl rfl fun _ x => waiting_of_notifyOne hwake
  | requeues w job wake ws hw hwake =>
      refine hs.keep rfl rfl fun _ x hx => ?_
      exact waiting_of_setWorker (by simp only [ne_eq, reduceCtorEq, not_false_eq_true])
        (waiting_of_notifyOne hwake hx)
  -- the predicate is tested where the worker blocks, so the queue is not stopped
  | blocks w hw hj hq =>
      exact hs.keep rfl rfl fun hstop => absurd hstop (Bool.not_eq_true _ ▸ hq)
  | stops hq => exact absurd rfl ha
  | clears hq =>
      refine ⟨fun ht => ?_, fun ht => ?_⟩
      · simp only [reduceCtorEq] at ht
      · simp only [reduceCtorEq, or_self] at ht
  | joins hq hw =>
      refine ⟨fun ht => ?_, fun _ => hs.late (.inl hq)⟩
      simp only [reduceCtorEq] at ht
  | breaks w job res p hw | pays w job res p hw | files w job res hw | reports w job res hw
    | ends w job hw | enters w hw | leaves w hw | wakes w hw | preempts w job res pid uid hw
    | finishes w job res pid uid hw | passes w job res hw | takes w job rest hw | departs w hw =>
      exact hs.keep rfl rfl fun _ x =>
        waiting_of_setWorker (by simp only [ne_eq, reduceCtorEq, not_false_eq_true])

/-- What every step preserves. -/
theorem inv_moves {a : Action n} (hs : Awake s ∧ Released s) (h : Moves sched s a t) :
    Awake t ∧ Released t := by
  cases h with
  | pools b t hb hp => exact ⟨awake_moves hs.1 hp, released_moves hs.2 hp hb⟩
  | sets hstop hq =>
      refine ⟨hs.1, fun ht => ?_, fun ht => ?_⟩
      · rw [hstop] at ht
        simp only [reduceCtorEq] at ht
      · rw [hstop] at ht
        simp only [reduceCtorEq, or_self] at ht
  | notifies hstop hq =>
      have hnone : ∀ x, Pool.notifyAll s.workers x ≠ .waiting := by
        intro x hx
        simp only [Pool.notifyAll] at hx
        split at hx
        · simp only [reduceCtorEq] at hx
        · rename_i hne
          exact hne hx
      refine ⟨?_, fun ht => ?_, fun _ => ⟨hq, hnone⟩⟩
      · rintro ⟨x, hx⟩
        exact absurd hx (hnone x)
      · simp only [reduceCtorEq] at ht

theorem noLostWakeup_of_inv (hs : Awake s ∧ Released s) : NoLostWakeup s := by
  have hawake : s.jobs ≠ [] → (∃ w, s.workers w = .waiting) →
      ∃ x, s.workers x = .dequeuing := by
    intro hjobs hw
    have hpos : 0 < ready s.workers :=
      Nat.lt_of_lt_of_le (List.length_pos_iff.mpr hjobs) (hs.1 hw)
    rcases exists_of_tally_pos hpos with ⟨x, hx⟩
    refine ⟨x, ?_⟩
    by_contra hne
    simp only [isReady, if_neg hne, Nat.lt_irrefl] at hx
  refine ⟨hawake, fun hjobs hn => ?_, fun ht => (hs.2.late ht).2⟩
  by_cases hw : s.workers ⟨0, hn⟩ = .waiting
  · rcases hawake hjobs ⟨_, hw⟩ with ⟨x, hx⟩
    exact ⟨x, by rw [hx]; simp only [ne_eq, reduceCtorEq, not_false_eq_true]⟩
  · exact ⟨_, hw⟩

/-- Any number of clients and workers, under any scheduler and in any
    interleaving, with the queue stopped at any time or not at all. -/
theorem no_lost_wakeup (sched : Scheduler) (n : Nat) (actions : List (Action n)) :
    Lts.Always (step sched) NoLostWakeup (Pool.init n) actions := by
  have hinit : Awake (Pool.init n) ∧ Released (Pool.init n) := by
    refine ⟨fun ⟨w, hw⟩ => ?_, fun _ => rfl, fun ht => ?_⟩
    · simp only [Pool.init, reduceCtorEq] at hw
    · simp only [Pool.init, reduceCtorEq, or_self] at ht
  have hrun : Lts.Always (step sched) (fun s => Awake s ∧ Released s) (Pool.init n) actions :=
    Lts.always_of_along (G := fun _ _ => True)
      (fun _ _ _ hi _ hs => inv_moves hi (moves_of_step hs)) actions hinit
      (Lts.along_of_forall fun _ _ _ => trivial)
  exact hrun.imp fun _ => noLostWakeup_of_inv

end Shutdown

end Isolyx
