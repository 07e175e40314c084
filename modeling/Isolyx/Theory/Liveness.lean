import Isolyx.Library.Progress
import Isolyx.Theory.Drain
import Isolyx.Theory.Wakeup
import Mathlib.Algebra.Group.Action.Defs

/-!
# The Pool Comes to Rest

That the pool gets its work done, whoever moves when, as long as the executions
return and no observer throws: an exception would end the engine. A client that
enqueues, a caller of `stop`, a wake-up without a cause and an execution that is
preempted bring new work; every other step is the pool's own and uses work up.
So the number of steps of a run is bounded by what came from outside
(`length_le_work`), and what remains to be said is where the pool can no longer
move by itself.

If `stop` was not called, that is where every worker is blocked. A deque with a
job in it has a worker on its way, so there the deque is empty, and every job
that was accepted has been reported and its promise set (`every_job_served`).

Once `stop` was called, it is where it has returned (`stop_returns`). Neither a
worker nor the caller can hang: nobody blocks on a stopped queue, a worker that
is not blocked can move, and with all of them gone the join succeeds.

## Main definitions

* `Own`: A step the pool takes by itself.
* `work`: How many steps of its own a state is worth.
* `price`: What an action from outside adds to that.
* `Living`: What every step of the pool preserves.

## Theorems

* `length_le_work`: A run is as long as the work that came from outside allows.
* `living_moves`: What every step of the pool preserves.
* `every_job_served`: A pool at rest has reported all its jobs.
* `stop_returns`: A pool that was stopped comes to rest in the return of `stop`.
-/

namespace Isolyx

namespace Shutdown

open Pool (State Worker setWorker notifyOne Inv Paid Drained)
open Threads (tally tally_update tally_mono)

variable {n : Nat} {sched : Scheduler} {s t : State n}

/-- A step the pool takes by itself: nobody enqueues or calls `stop`, and no
    worker wakes without a cause. -/
def Own : Action n → Prop
  | .pool (.enqueue _ _) | .pool (.wakeSpuriously _) | .pool .clearRunning => False
  | _ => True

/-- An execution that ends with the job preempted. -/
def preempts : Action n → Bool
  | .pool (.execute _ res _ _) => res.preempted
  | _ => false

/-! ## The length of a run -/

/-- The steps a worker has before it, up to where it blocks or leaves. -/
def effort : Worker → Nat
  | .gone => 0
  | .waiting => 1
  | .dequeuing => 2
  | .atLoopHead => 3
  | .settled _ => 4
  | .submitted _ _ => 5
  | .submitting _ _ => 6
  | .finished _ _ => 7
  | .executing _ => 8
  -- the job it puts back is worth seven steps, and one worker is woken for it
  | .requeueing _ => 12

/-- The steps of the thread that stops the pool. Its notification gives every
    blocked worker another step. -/
def patience (s : State n) : Nat :=
  match s.stopper with
  | .notCalled => n + 4
  | .flagged => if s.stopping then n + 2 else n + 3
  | .joining => 1
  | .returned => 0

def work (s : State n) : Nat := 7 * s.jobs.length + tally effort s.workers + patience s

/-- What an action adds to the work, itself included. -/
def price : Action n → Nat
  | .pool (.enqueue _ _) => 9
  | .pool (.wakeSpuriously _) => 2
  | .pool (.execute _ res _ _) => if res.preempted then 5 else 0
  | _ => 0

theorem effort_notifyOne {ws ws' : Fin n → Worker} {wake : Option (Fin n)}
    (h : notifyOne ws wake = some ws') : tally effort ws' ≤ tally effort ws + 1 := by
  cases wake with
  | none =>
      simp only [notifyOne, Option.ite_none_left_eq_some, Option.some.injEq] at h
      rw [h.2]
      exact Nat.le_succ _
  | some x =>
      simp only [notifyOne, Option.ite_none_right_eq_some, Option.some.injEq] at h
      have hu := tally_update effort ws x .dequeuing
      rw [← h.2]
      simp only [h.1, effort] at hu
      omega

theorem effort_notifyAll (ws : Fin n → Worker) :
    tally effort (Pool.notifyAll ws) ≤ tally effort ws + n := by
  have hone : ∀ w, effort (Pool.notifyAll ws w) ≤ effort (ws w) + 1 := by
    intro w
    simp only [Pool.notifyAll]
    split
    · rename_i hw
      simp only [hw, effort, Nat.reduceAdd, Nat.le_refl]
    · exact Nat.le_succ _
  have hsum := Finset.sum_le_sum fun w (_ : w ∈ Finset.univ) => hone w
  simpa only [tally, Finset.sum_add_distrib, Finset.sum_const, Finset.card_univ, Fintype.card_fin,
    smul_eq_mul, Nat.mul_one] using hsum

/-- One worker moves on and the rest stays. -/
theorem work_setWorker {w : Fin n} {u v : Worker} (hw : s.workers w = u)
    (hworkers : t.workers = Function.update s.workers w v) (hjobs : t.jobs = s.jobs)
    (hstopper : t.stopper = s.stopper) (hstopping : t.stopping = s.stopping) :
    work t + effort u = work s + effort v := by
  have hu := tally_update effort s.workers w v
  have hp : patience t = patience s := by simp only [patience, hstopper, hstopping]
  rw [hw] at hu
  simp only [work, hworkers, hjobs, hp]
  omega

/-- So that it has less before it. -/
theorem work_descends {w : Fin n} {u v : Worker} (hw : s.workers w = u)
    (hless : effort v < effort u) (hworkers : t.workers = Function.update s.workers w v)
    (hjobs : t.jobs = s.jobs) (hstopper : t.stopper = s.stopper)
    (hstopping : t.stopping = s.stopping) : work t + 1 ≤ work s := by
  have hu := work_setWorker hw hworkers hjobs hstopper hstopping
  omega

/-- A job is added and a worker woken for it. -/
theorem work_enqueues {job : Job} {ws : Fin n → Worker} {wake : Option (Fin n)}
    (hwake : notifyOne s.workers wake = some ws) (hjobs : t.jobs = s.jobs ++ [job])
    (hworkers : t.workers = ws) (hpatience : patience t = patience s) :
    work t ≤ work s + 8 := by
  have hwoken := effort_notifyOne hwake
  simp only [work, hjobs, hworkers, hpatience, List.length_append, List.length_singleton]
  omega

/-- The worker puts its job back. -/
theorem work_requeues {w : Fin n} {job job' : Job} {ws : Fin n → Worker} {wake : Option (Fin n)}
    (hw : s.workers w = .requeueing job)
    (hwake : notifyOne (setWorker s w .atLoopHead).workers wake = some ws)
    (hjobs : t.jobs = s.jobs ++ [job']) (hworkers : t.workers = ws)
    (hpatience : patience t = patience s) : work t + 1 ≤ work s := by
  have hput := work_enqueues hwake hjobs hworkers hpatience
  have hback := work_setWorker (t := setWorker s w .atLoopHead) hw rfl rfl rfl rfl
  simp only [effort] at hback
  omega

/-- The job leaves the deque, and the worker has it before it. -/
theorem work_takes {w : Fin n} {job : Job} {rest : List Job} (hw : s.workers w = .dequeuing)
    (hlen : s.jobs.length = (job :: rest).length)
    (hworkers : t.workers = Function.update s.workers w (.executing job))
    (hjobs : t.jobs = rest) (hpatience : patience t = patience s) :
    work t + 1 ≤ work s := by
  have hu := tally_update effort s.workers w (.executing job)
  simp only [hw, effort] at hu
  simp only [work, hjobs, hworkers, hpatience, hlen, List.length_cons]
  omega

theorem work_moves_pool {a : Pool.Action n} (h : Pool.Moves sched s a t) :
    work t + 1 ≤ work s + price (.pool a) := by
  cases h with
  | enqueues sub wake ws hnew hwake =>
      exact Nat.succ_le_succ (work_enqueues hwake rfl rfl rfl)
  | requeues w job wake ws hw hwake =>
      exact Nat.le_add_right_of_le (work_requeues hw hwake rfl rfl rfl)
  | takes w job rest hw hg =>
      exact Nat.le_add_right_of_le
        (work_takes hw (Scheduler.getNextJob_perm hg).length_eq rfl rfl rfl)
  | preempts w job res pid uniqueId hw hp =>
      have hu := work_setWorker (t := setWorker s w (.requeueing { job with
        pid := pid, uniqueId := uniqueId })) hw rfl rfl rfl rfl
      simp only [effort] at hu
      simp only [price, hp, if_true]
      omega
  | wakes w hw =>
      have hu := work_setWorker (t := setWorker s w .dequeuing) hw rfl rfl rfl rfl
      simp only [effort] at hu
      simp only [price]
      omega
  | clears hs =>
      simp only [work, patience, hs, price]
      split <;> omega
  | stops hs =>
      have hwoken := effort_notifyAll s.workers
      simp only [work, patience, hs, price]
      split <;> omega
  | joins hs hall =>
      simp only [work, patience, hs, price]
      omega
  | enters w hw | leaves w hw | blocks w hw | departs w hw =>
      refine Nat.le_add_right_of_le (work_descends hw ?_ rfl rfl rfl rfl)
      simp only [effort, Nat.reduceLT]
  | finishes w job res pid uniqueId hw hp =>
      refine Nat.le_add_right_of_le (work_descends hw ?_ rfl rfl rfl rfl)
      simp only [effort, Nat.reduceLT]
  | files w job res hw | reports w job res hw | passes w job res hw | breaks w job res p hw
    | pays w job res p hw | ends w job hw =>
      refine Nat.le_add_right_of_le (work_descends hw ?_ rfl rfl rfl rfl)
      simp only [effort, Nat.reduceLT]

theorem work_moves {a : Action n} (h : Moves sched s a t) : work t + 1 ≤ work s + price a := by
  cases h with
  | pools b t hb hp => exact work_moves_pool hp
  | sets hs hq =>
      simp only [work, patience, hs, hq, price, if_true, Bool.false_eq_true, if_false]
      omega
  | notifies hs hq =>
      have hwoken := effort_notifyAll s.workers
      simp only [work, patience, hs, hq, price, if_true]
      omega

/-- A run is as long as the work there was and the work that came allow. -/
theorem length_le_work {actions : List (Action n)}
    (h : Lts.run (step sched) s actions = some t) :
    actions.length + work t ≤ work s + Lts.cost price actions :=
  Lts.length_add_le (fun _ _ _ hs => work_moves (moves_of_step hs)) h

/-- The pool's own steps cost nothing, but for the executions that are preempted. -/
theorem price_own {actions : List (Action n)} (h : ∀ a ∈ actions, Own a) :
    Lts.cost price actions = 5 * actions.countP preempts := by
  induction actions with
  | nil => rfl
  | cons a actions ih =>
      have hone : price a = 5 * if preempts a then 1 else 0 := by
        cases a with
        | pool b => cases b with
          | enqueue sub wake => exact absurd (h _ List.mem_cons_self) not_false
          | wakeSpuriously w => exact absurd (h _ List.mem_cons_self) not_false
          | execute w res pid uniqueId =>
              rw [price, preempts]
              split
              · rfl
              · rfl
          | _ => rfl
        | _ => rfl
      rw [Lts.cost, List.countP_cons, hone,
        ih fun b hb => h b (List.mem_cons_of_mem a hb)]
      omega

/-! ## What every step preserves -/

structure Living (s : State n) : Prop where
  inv : Inv s
  paid : Paid s
  awake : Awake s
  released : Released s
  opened : s.stopper = .notCalled → s.running = true ∧ ∀ w, s.workers w ≠ .gone
  closed : s.stopper = .returned → ∀ w, s.workers w = .gone

theorem living_init : Living (Pool.init n) where
  inv := Pool.inv_init
  paid := Pool.draining_init.paid
  awake := fun ⟨_, hw⟩ => Worker.noConfusion hw
  released := ⟨fun _ => rfl, fun h => by simp only [Pool.init, reduceCtorEq, or_self] at h⟩
  opened _ := ⟨rfl, fun _ hw => Worker.noConfusion hw⟩
  closed h := Pool.Stopper.noConfusion h

theorem gone_of_setWorker {w x : Fin n} {v : Worker} (hv : v ≠ .gone)
    (hx : (setWorker s w v).workers x = .gone) : s.workers x = .gone := by
  rw [Pool.workers_setWorker] at hx
  split at hx
  · exact absurd hx hv
  · exact hx

/-- A worker leaves only if it finds a flag of the stop set. -/
theorem gone_of_moves {a : Pool.Action n} (hi : Inv s) (h : Pool.Moves sched s a t) {x : Fin n}
    (hx : t.workers x = .gone) :
    s.workers x = .gone ∨ s.running = false ∨ s.stopping = true := by
  have hstay : ∀ {w v}, v ≠ Worker.gone → (setWorker s w v).workers x = .gone →
      s.workers x = .gone ∨ s.running = false ∨ s.stopping = true :=
    fun hv hx => .inl (gone_of_setWorker hv hx)
  cases h with
  | enqueues sub wake ws hnew hwake =>
      exact .inl ((Pool.notifyOne_eq hwake Worker.noConfusion Worker.noConfusion x).mp hx)
  | requeues w job wake ws hw hwake =>
      exact hstay Worker.noConfusion
        ((Pool.notifyOne_eq hwake Worker.noConfusion Worker.noConfusion x).mp hx)
  | leaves w hw hr => exact .inr (.inl hr)
  | departs w hw hj hs => exact .inr (.inr hs)
  -- `set_value` does not throw
  | breaks w job res p hw hp hset => exact absurd hset (Pool.inv_unset hi hw hp)
  | clears hs | joins hs hw => exact .inl hx
  | stops hs =>
      exact .inl ((Pool.notifyAll_eq s.workers Worker.noConfusion Worker.noConfusion x).mp hx)
  | _ => exact hstay Worker.noConfusion hx

/-- Nobody but the caller of `stop` touches its flag. -/
theorem opened_moves {a : Pool.Action n} (h : Pool.Moves sched s a t)
    (ht : t.stopper = .notCalled) : s.stopper = .notCalled ∧ t.running = s.running := by
  cases h with
  | clears hs | stops hs | joins hs hw => exact Pool.Stopper.noConfusion ht
  | _ => exact ⟨ht, rfl⟩

/-- `stop` returns when it has joined everybody, and who is gone stays so. -/
theorem closed_moves {a : Pool.Action n} (hs : s.stopper = .returned → ∀ w, s.workers w = .gone)
    (h : Pool.Moves sched s a t) (ht : t.stopper = .returned) : ∀ w, t.workers w = .gone := by
  have hbusy : ∀ {w v}, s.workers w = v → v ≠ .gone → s.stopper = .returned → False :=
    fun hw hv hret => hv (hw.symm.trans (hs hret _))
  cases h with
  | enqueues sub wake ws hnew hwake =>
      intro x
      exact (Pool.notifyOne_eq hwake Worker.noConfusion Worker.noConfusion x).mpr (hs ht x)
  | clears h | stops h => exact Pool.Stopper.noConfusion ht
  | joins h hw => exact hw
  | requeues w job wake ws hw => exact (hbusy hw Worker.noConfusion ht).elim
  | enters w hw | leaves w hw | blocks w hw | departs w hw | takes w job rest hw | wakes w hw
    | preempts w job res pid uniqueId hw | finishes w job res pid uniqueId hw
    | files w job res hw | reports w job res hw | passes w job res hw | breaks w job res p hw
    | pays w job res p hw | ends w job hw => exact (hbusy hw Worker.noConfusion ht).elim

theorem living_pools {a : Pool.Action n} (hs : Living s) (ha : a ≠ .stopQueue)
    (h : Pool.Moves sched s a t) : Living t where
  inv := Pool.inv_moves hs.inv h
  paid := Pool.paid_moves hs.inv hs.paid h
  awake := awake_moves hs.awake h
  released := released_moves hs.released h ha
  opened ht := by
    rcases opened_moves h ht with ⟨hnot, hrunning⟩
    refine ⟨hrunning.trans (hs.opened hnot).1, fun w hw => ?_⟩
    rcases gone_of_moves hs.inv h hw with hgone | hr | hq
    · exact (hs.opened hnot).2 w hgone
    · exact Bool.false_ne_true (hr.symm.trans (hs.opened hnot).1)
    · exact Bool.false_ne_true ((hs.released.early hnot).symm.trans hq)
  closed ht := closed_moves hs.closed h ht

theorem living_moves {a : Action n} (hs : Living s) (h : Moves sched s a t) : Living t := by
  have hflags := inv_moves ⟨hs.awake, hs.released⟩ h
  cases h with
  | pools b t hb hp => exact living_pools hs hb hp
  | sets hstop hq =>
      exact {
        inv := { hs.inv with }
        paid := { hs.paid with }
        awake := hflags.1
        released := hflags.2
        opened := fun ht => absurd (hstop.symm.trans ht) Pool.Stopper.noConfusion
        closed := fun ht => absurd (hstop.symm.trans ht) Pool.Stopper.noConfusion }
  | notifies hstop hq =>
      -- for the jobs it is the same as if the queue had been stopped in one step
      have hstops : Pool.Moves sched s .stopQueue { s with
        stopping := true, stopper := .joining, workers := Pool.notifyAll s.workers } := .stops hstop
      rw [← hq] at hstops
      exact {
        inv := Pool.inv_moves hs.inv hstops
        paid := Pool.paid_moves hs.inv hs.paid hstops
        awake := hflags.1
        released := hflags.2
        opened := fun ht => Pool.Stopper.noConfusion ht
        closed := fun ht => Pool.Stopper.noConfusion ht }

theorem living_run {actions : List (Action n)}
    (h : Lts.run (step sched) (Pool.init n) actions = some s) : Living s :=
  Lts.run_invariant (fun _ _ _ hs hstep => living_moves hs (moves_of_step hstep)) living_init h

/-! ## Where the pool cannot move by itself -/

/-- Somebody can be woken, or nobody is there to be. -/
theorem exists_notifyOne (ws : Fin n → Worker) : ∃ wake ws', notifyOne ws wake = some ws' := by
  by_cases hw : ∃ w, ws w = .waiting
  · rcases hw with ⟨w, hw⟩
    exact ⟨some w, _, if_pos hw⟩
  · exact ⟨none, ws, if_neg hw⟩

/-- A worker that is neither blocked nor gone has a step of its own. -/
theorem idle_of_stuck (h : Lts.Stuck (step sched) Own s) (w : Fin n) :
    s.workers w = .waiting ∨ s.workers w = .gone := by
  cases hw : s.workers w with
  | waiting => exact .inl rfl
  | gone => exact .inr rfl
  | atLoopHead =>
      have htest : Pool.step sched s (.testRunning w) = none := h (.pool (.testRunning w)) trivial
      simp only [Pool.step, hw, reduceCtorEq] at htest
  | dequeuing =>
      have htake : Pool.step sched s (.dequeue w) = none := h (.pool (.dequeue w)) trivial
      simp only [Pool.step, hw, reduceCtorEq] at htake
  | executing job =>
      have hend : Pool.step sched s (.execute w {} 0 0) = none :=
        h (.pool (.execute w {} 0 0)) trivial
      simp only [Pool.step, hw, reduceCtorEq] at hend
  | requeueing job =>
      rcases exists_notifyOne (setWorker s w .atLoopHead).workers with ⟨wake, ws, hwake⟩
      have hput : Pool.step sched s (.requeue w wake) = none := h (.pool (.requeue w wake)) trivial
      simp only [Pool.step, hw, Pool.enqueue, hwake, reduceCtorEq] at hput
  | finished job res =>
      have hcall : Pool.step sched s (.callSubmitResult w) = none :=
        h (.pool (.callSubmitResult w)) trivial
      simp only [Pool.step, hw, reduceCtorEq] at hcall
  | submitting job res =>
      have hreturn : Pool.step sched s (.returnFromSubmitResult w) = none :=
        h (.pool (.returnFromSubmitResult w)) trivial
      simp only [Pool.step, hw, reduceCtorEq] at hreturn
  | submitted job res =>
      have hset : Pool.step sched s (.setPromise w) = none := h (.pool (.setPromise w)) trivial
      simp only [Pool.step, hw] at hset
      split at hset
      · simp only [reduceCtorEq] at hset
      · split at hset
        · simp only [reduceCtorEq] at hset
        · simp only [reduceCtorEq] at hset
  | settled job =>
      have hend : Pool.step sched s (.endIteration w) = none := h (.pool (.endIteration w)) trivial
      simp only [Pool.step, hw, reduceCtorEq] at hend

/-- What is accepted is neither in the deque nor in anybody's hands. -/
theorem drained_of_idle (hs : Living s) (hjobs : s.jobs = [])
    (hidle : ∀ w, s.workers w = .waiting ∨ s.workers w = .gone) : Drained s := by
  have hhands : ∀ w, (s.workers w).job? = none := by
    intro w
    rcases hidle w with hw | hw <;> rw [hw] <;> rfl
  have hzero : ∀ p i, tally (Pool.stage p i) s.workers = 0 := fun p i =>
    Finset.sum_eq_zero fun w _ => Pool.stage_of_idle (hhands w)
  have hdone : ∀ a ∈ s.accepted, s.completed.count a.id = 1 := by
    intro a ha
    have hone := Pool.inv_place_one hs.inv (List.mem_map.mpr ⟨a, ha, rfl⟩)
    have hnobody : Pool.holders s a.id = 0 := hzero _ _
    rw [hjobs, hnobody] at hone
    simpa only [List.map_nil, List.count_nil, Nat.zero_add] using hone
  refine ⟨hjobs, fun a ha => ⟨?_, ?_⟩, fun a ha => ?_, fun a ha hunreaped => ?_⟩
  · rw [hs.inv.filed, Pool.filed, hzero, hdone a ha]
  · refine List.count_pos_iff.mp ?_
    rw [hs.inv.reported, Pool.reported, hzero, hdone a ha]
    exact Nat.one_pos
  · refine hs.paid.completed a ha (List.count_pos_iff.mp ?_)
    rw [hdone a ha]
    exact Nat.one_pos
  · rcases hunreaped with ⟨_, job, hjob, _⟩ | ⟨w, job, _, hw | hw⟩
    · rw [hjobs] at hjob
      exact absurd hjob List.not_mem_nil
    · exact absurd (hidle w) (by simp [hw])
    · exact absurd (hidle w) (by simp [hw])

/-- In a pool that was not stopped nobody leaves, so all are blocked, and then
    the deque is empty. -/
theorem drained_of_stuck (hs : Living s) (hn : 0 < n) (hopen : s.stopper = .notCalled)
    (h : Lts.Stuck (step sched) Own s) : (∀ w, s.workers w = .waiting) ∧ Drained s := by
  have hall : ∀ w, s.workers w = .waiting := fun w =>
    (idle_of_stuck h w).resolve_right ((hs.opened hopen).2 w)
  refine ⟨hall, drained_of_idle hs ?_ fun w => .inl (hall w)⟩
  by_contra hjobs
  rcases (noLostWakeup_of_inv ⟨hs.awake, hs.released⟩).unblocked hjobs hn with ⟨w, hw⟩
  exact hw (hall w)

/-- Once `stop` was called, either its caller or a worker can go on. -/
theorem returned_of_stuck (hs : Living s) (hcalled : s.stopper ≠ .notCalled)
    (h : Lts.Stuck (step sched) Own s) : s.stopper = .returned := by
  cases hstop : s.stopper with
  | notCalled => exact absurd hstop hcalled
  | returned => rfl
  | flagged =>
      cases hq : s.stopping with
      | false =>
          have hset := h .setStopping trivial
          simp only [step, hstop, hq, and_self, if_true, reduceCtorEq] at hset
      | true =>
          have hnotify := h .notifyAll trivial
          simp only [step, hstop, hq, and_self, if_true, reduceCtorEq] at hnotify
  | joining =>
      have hjoin : Pool.step sched s .joinWorkers = none := h (.pool .joinWorkers) trivial
      have hgone : ∀ w, s.workers w = .gone := fun w =>
        (idle_of_stuck h w).resolve_left ((hs.released.late (.inl hstop)).2 w)
      simp only [Pool.step, hstop, true_and, if_pos hgone, reduceCtorEq] at hjoin

/-- A pool with nobody left, or with everybody blocked, does nothing by itself. -/
theorem own_needs_worker {a : Action n} (ha : Own a)
    (hidle : (∀ w, s.workers w = .waiting) ∧ s.stopper = .notCalled ∨
      (∀ w, s.workers w = .gone) ∧ s.stopper = .returned)
    (h : Moves sched s a t) : False := by
  have hbusy : ∀ {w v}, s.workers w = v → v ≠ .waiting → v ≠ .gone → False := by
    intro w v hw hwait hgone
    rcases hidle with ⟨hall, _⟩ | ⟨hall, _⟩
    · exact hwait (hw.symm.trans (hall w))
    · exact hgone (hw.symm.trans (hall w))
  have hstill : s.stopper ≠ .flagged ∧ s.stopper ≠ .joining := by
    rcases hidle with ⟨_, hs⟩ | ⟨_, hs⟩ <;> rw [hs] <;>
      exact ⟨Pool.Stopper.noConfusion, Pool.Stopper.noConfusion⟩
  cases h with
  | sets hs hq | notifies hs hq => exact hstill.1 hs
  | pools b t hb hp => cases hp with
    | enqueues | wakes | clears => exact ha
    | stops hs => exact hb rfl
    | joins hs hw => exact hstill.2 hs
    | enters w hw | leaves w hw | blocks w hw | departs w hw | takes w job rest hw
      | preempts w job res pid uniqueId hw | finishes w job res pid uniqueId hw
      | requeues w job wake ws hw | files w job res hw | reports w job res hw
      | passes w job res hw | breaks w job res p hw | pays w job res p hw | ends w job hw =>
        exact hbusy hw Worker.noConfusion Worker.noConfusion

theorem stuck_of_idle (hidle : (∀ w, s.workers w = .waiting) ∧ s.stopper = .notCalled ∨
    (∀ w, s.workers w = .gone) ∧ s.stopper = .returned) : Lts.Stuck (step sched) Own s := by
  refine fun a ha => Option.eq_none_iff_forall_ne_some.mpr fun t ht => ?_
  exact own_needs_worker ha hidle (moves_of_step ht)

theorem notCalled_of_own {a : Action n} (ha : Own a) (hs : s.stopper = .notCalled)
    (h : Moves sched s a t) : t.stopper = .notCalled := by
  cases h with
  | sets hstop hq | notifies hstop hq => exact Pool.Stopper.noConfusion (hs.symm.trans hstop)
  | pools b t hb hp => cases hp with
    | clears => exact ha.elim
    | stops hstop | joins hstop hw => exact Pool.Stopper.noConfusion (hs.symm.trans hstop)
    | _ => exact hs

theorem called_moves {a : Action n} (hs : s.stopper ≠ .notCalled) (h : Moves sched s a t) :
    t.stopper ≠ .notCalled := by
  cases h with
  | sets hstop hq => exact hs
  | notifies hstop hq => exact Pool.Stopper.noConfusion
  | pools b t hb hp => cases hp with
    | clears hstop | stops hstop | joins hstop hw => exact Pool.Stopper.noConfusion
    | _ => exact hs

/-- The pool's own steps, with executions that are not preempted. -/
def Free (a : Action n) : Prop := Own a ∧ preempts a = false

/-- Where no execution can end without a preemption, none can end at all. -/
theorem stuck_of_free (h : Lts.Stuck (step sched) Free s) : Lts.Stuck (step sched) Own s := by
  intro a ha
  cases hp : preempts a with
  | false => exact h a ⟨ha, hp⟩
  | true =>
      refine Option.eq_none_iff_forall_ne_some.mpr fun t ht => ?_
      unfold preempts at hp
      split at hp
      · rename_i w res pid uniqueId
        cases moves_of_step ht with
        | pools b t hb hmoves =>
            have hnone : Pool.step sched s (.execute w {} pid uniqueId) = none :=
              h (.pool (.execute w {} pid uniqueId)) ⟨trivial, rfl⟩
            cases hmoves with
            | preempts w job res pid uniqueId hw | finishes w job res pid uniqueId hw =>
                simp only [Pool.step, hw, reduceCtorEq] at hnone
      · exact Bool.false_ne_true hp

theorem exists_rest (sched : Scheduler) (s : State n) : ∃ more t, (∀ a ∈ more, Own a) ∧
    Lts.run (step sched) s more = some t ∧ Lts.Stuck (step sched) Own t := by
  have hfree : ∀ (u : State n) a v, True → Free a → step sched u a = some v →
      True ∧ work v < work u := by
    intro u a v _ ha hstep
    have hmove := work_moves (moves_of_step hstep)
    have hprice : price a = 0 := by
      have hsum := @price_own n [a] fun b hb => (List.mem_singleton.mp hb) ▸ ha.1
      simpa only [Lts.cost, Nat.add_zero, List.countP_singleton, ha.2, Bool.false_eq_true,
        if_false, Nat.mul_zero] using hsum
    exact ⟨trivial, by omega⟩
  rcases Lts.exists_stuck hfree (s := s) trivial with ⟨more, t, hall, hr, hstuck⟩
  exact ⟨more, t, fun a ha => (hall a ha).1, hr, stuck_of_free hstuck⟩

/-! ## The pool comes to rest -/

/-- For any workers, one at least, any jobs that were accepted and any
    interleaving of a pool that was not stopped, where executions return and
    observers do not throw: whatever steps the pool then takes by itself, there
    are no more of them than the work and the preemptions allow, some such
    sequence ends the work, and where they end, in whatever order they were
    taken, every worker is blocked, every accepted job has been reported once
    and every promise is set. -/
theorem every_job_served (sched : Scheduler) (n : Nat) (hn : 0 < n)
    (actions : List (Action n)) (s : State n)
    (h : Lts.run (step sched) (Pool.init n) actions = some s) (hopen : s.stopper = .notCalled) :
    (∀ more t, (∀ a ∈ more, Own a) → Lts.run (step sched) s more = some t →
      more.length ≤ work s + 5 * more.countP preempts ∧
        (Lts.Stuck (step sched) Own t ↔ (∀ w, t.workers w = .waiting)) ∧
        (Lts.Stuck (step sched) Own t → Drained t)) ∧
      ∃ more t, (∀ a ∈ more, Own a) ∧ Lts.run (step sched) s more = some t ∧ Drained t := by
  have hopens : ∀ more t, (∀ a ∈ more, Own a) → Lts.run (step sched) s more = some t →
      Living t ∧ t.stopper = .notCalled := by
    intro more t hown hr
    refine ⟨living_run (Lts.run_append.mpr ⟨s, h, hr⟩), ?_⟩
    exact Lts.end_of_along (G := fun _ a => Own a)
      (fun _ _ _ hs ha hstep => notCalled_of_own ha hs (moves_of_step hstep)) hopen
      (Lts.along_of_forall fun a ha _ => hown a ha) hr
  refine ⟨fun more t hown hr => ?_, ?_⟩
  · rcases hopens more t hown hr with ⟨hliving, hstill⟩
    have hlen := length_le_work hr
    rw [price_own hown] at hlen
    refine ⟨by omega, ⟨fun hstuck => (drained_of_stuck hliving hn hstill hstuck).1, ?_⟩,
      fun hstuck => (drained_of_stuck hliving hn hstill hstuck).2⟩
    exact fun hall => stuck_of_idle (.inl ⟨hall, hstill⟩)
  · rcases exists_rest sched s with ⟨more, t, hown, hr, hstuck⟩
    rcases hopens more t hown hr with ⟨hliving, hstill⟩
    exact ⟨more, t, hown, hr, (drained_of_stuck hliving hn hstill hstuck).2⟩

/-- Two workers, one of them on its way when a client enqueues a job. -/
theorem every_job_served_two : ∃ s : State 2, s.accepted.map Job.id = [1] ∧
    ∃ more t, (∀ a ∈ more, Own a) ∧ Lts.run (step .mlfq) s more = some t ∧ Drained t := by
  have hserved := every_job_served .mlfq 2 (by decide)
    [.pool (.testRunning 0), .pool (.enqueue { id := 1, cmd := {}, resultPromise := some 7 } none)]
    _ rfl rfl
  exact ⟨_, rfl, hserved.2⟩

/-- Once `stop` was called, in any state of the workers and the deque, where
    executions return and observers do not throw: whatever steps the pool then
    takes by itself, there are no more of them than the work and the
    preemptions allow, and it can go on as long as `stop` has not returned. -/
theorem stop_returns (sched : Scheduler) (n : Nat) (actions : List (Action n)) (s : State n)
    (h : Lts.run (step sched) (Pool.init n) actions = some s) (hcalled : s.stopper ≠ .notCalled) :
    (∀ more t, (∀ a ∈ more, Own a) → Lts.run (step sched) s more = some t →
      more.length ≤ work s + 5 * more.countP preempts ∧
        (Lts.Stuck (step sched) Own t ↔ t.stopper = .returned)) ∧
      ∃ more t, (∀ a ∈ more, Own a) ∧ Lts.run (step sched) s more = some t ∧
        t.stopper = .returned := by
  have hcalls : ∀ more t, Lts.run (step sched) s more = some t →
      Living t ∧ t.stopper ≠ .notCalled := by
    intro more t hr
    refine ⟨living_run (Lts.run_append.mpr ⟨s, h, hr⟩), ?_⟩
    exact Lts.run_invariant (fun _ _ _ hs hstep => called_moves hs (moves_of_step hstep)) hcalled hr
  refine ⟨fun more t hown hr => ?_, ?_⟩
  · rcases hcalls more t hr with ⟨hliving, hstill⟩
    have hlen := length_le_work hr
    rw [price_own hown] at hlen
    refine ⟨by omega, returned_of_stuck hliving hstill, fun hret => ?_⟩
    exact stuck_of_idle (.inr ⟨hliving.closed hret, hret⟩)
  · rcases exists_rest sched s with ⟨more, t, hown, hr, hstuck⟩
    rcases hcalls more t hr with ⟨hliving, hstill⟩
    exact ⟨more, t, hown, hr, returned_of_stuck hliving hstill hstuck⟩

/-- A worker is blocked and another is about to take a job when the pool is stopped. -/
theorem stop_returns_two : ∃ s : State 2, s.workers 0 = .waiting ∧ s.jobs.map Job.id = [1] ∧
    ∃ more t, (∀ a ∈ more, Own a) ∧ Lts.run (step .fcfs) s more = some t ∧
      t.stopper = .returned := by
  have hreturns := stop_returns .fcfs 2
    [.pool (.testRunning 0), .pool (.testRunning 1), .pool (.dequeue 0), .pool (.dequeue 1),
      .pool (.enqueue { id := 1, cmd := {}, resultPromise := some 7 } (some 1)),
      .pool .clearRunning] _ rfl (by decide)
  exact ⟨_, rfl, rfl, hreturns.2⟩

end Shutdown

end Isolyx
