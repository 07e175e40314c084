import Isolyx.Theory.ExactlyOnce

/-!
# The Drain on Stop

What `WorkerPool::stop` leaves behind. The queue is built for a complete drain:
`dequeue` hands out jobs for as long as there are any, stopping or not, and
returns nothing only once the queue is stopped and empty. A worker that only
followed the queue would therefore never leave a job behind.

But `workerLoop` asks the pool's own flag first. `stop` clears `running_`
before it stops the queue, and a worker that comes back to the head of its
loop after that leaves at once, whatever the deque holds. The jobs it would
have taken are left to the other workers, and the last one to leave in this
way leaves them to nobody.

Whether that happened is visible in the run, at the one step where it becomes
irrevocable: a worker reads the cleared flag while the deque holds a job and
every other worker is gone. Nothing is enqueued after `stop` is called, and a
preempted job comes back by the hand of a worker that is still there, so a
deque nobody looks after stays as it is (`abandoned_moves`); as long as the
step was not taken, a deque with a job in it has a worker (`staffed_moves`).

## Main definitions

* `stepUntilStop`: Clients enqueue nothing once `stop` was called.
* `Unreaped`: A process launched for a job is alive or stopped.
* `Drained`: What a complete drain leaves.
* `Attended`: No worker leaves the deque to nobody.

## Theorems

* `paid_moves`: A completed job has its promise set.
* `staffed_moves`: A deque that is attended has a worker.
* `abandoned_moves`: A deque that nobody is left for stays so.
* `drained_iff_attended`: `stop` drains completely exactly when every step
  attends to the deque.
* `queued_job_dropped`: A job that is queued at the stop can be dropped.
-/

namespace Isolyx

namespace Pool

open Threads (tally)

variable {n : Nat} {sched : Scheduler} {s t : State n} {a : Action n}

/-- The pool, with clients that enqueue nothing once `stop` was called. -/
def stepUntilStop (sched : Scheduler) (s : State n) : Action n → Option (State n)
  | .enqueue sub wake =>
      if s.stopper = .notCalled then step sched s (.enqueue sub wake) else none
  | a => step sched s a

/-- A process launched for job `i` is alive or stopped: its execution is under
    way, or one was preempted and no other has begun. -/
def Unreaped (s : State n) (i : Nat) : Prop :=
  (i ∈ s.requeued ∧ ∃ job ∈ s.jobs, job.id = i) ∨
    ∃ w job, job.id = i ∧ (s.workers w = .executing job ∨ s.workers w = .requeueing job)

/-- What a complete drain leaves. -/
structure Drained (s : State n) : Prop where
  empty : s.jobs = []
  submitted : ∀ a ∈ s.accepted, s.submissions.count a.id = 1 ∧ a.id ∈ s.returned
  promised : ∀ a ∈ s.accepted, ∀ p, a.resultPromise = some p → p ∈ s.satisfied
  reaped : ∀ a ∈ s.accepted, ¬ Unreaped s a.id

/-- There is a worker to enqueue for, and no worker that finds the flag
    cleared is the last one to leave a deque with a job in it. -/
def Attended (s : State n) : Action n → Prop
  | .enqueue _ _ => 0 < n
  | .testRunning w => s.running = true ∨ s.jobs = [] ∨ ∃ x, x ≠ w ∧ s.workers x ≠ .gone
  | _ => True

theorem step_of_stepUntilStop (h : stepUntilStop sched s a = some t) :
    step sched s a = some t ∧ ((∃ sub wake, a = .enqueue sub wake) → s.stopper = .notCalled) := by
  cases a with
  | enqueue sub wake =>
      simp only [stepUntilStop, Option.ite_none_right_eq_some] at h
      exact ⟨h.2, fun _ => h.1⟩
  | _ =>
      refine ⟨h, ?_⟩
      rintro ⟨_, _, h⟩
      exact absurd h (by simp only [reduceCtorEq, not_false_eq_true])

/-! ## Promises -/

/-- A job that is past setting its promise, if it has one, has it set. -/
structure Paid (s : State n) : Prop where
  settled : ∀ w job, s.workers w = .settled job → ∀ p, job.resultPromise = some p →
    p ∈ s.satisfied
  completed : ∀ a ∈ s.accepted, a.id ∈ s.completed → ∀ p, a.resultPromise = some p →
    p ∈ s.satisfied

/-- A step that settles and completes nothing. -/
theorem Paid.keep (hp : Paid s) (hworkers : ∀ x job, t.workers x = .settled job →
    s.workers x = .settled job) (haccepted : ∀ a ∈ t.accepted, a.id ∈ t.completed →
      a ∈ s.accepted ∧ a.id ∈ s.completed) (hsatisfied : t.satisfied = s.satisfied) : Paid t where
  settled w job hw p hjob := hsatisfied ▸ hp.settled w job (hworkers w job hw) p hjob
  completed a ha hid p hjob :=
    hsatisfied ▸ hp.completed a (haccepted a ha hid).1 (haccepted a ha hid).2 p hjob

/-- A worker moves to a phase other than the one at the end of the iteration. -/
theorem Paid.setWorker (hp : Paid s) {w : Fin n} {v : Worker} (hv : ∀ job, v ≠ .settled job)
    (hworkers : t.workers = (setWorker s w v).workers) (haccepted : t.accepted = s.accepted)
    (hcompleted : t.completed = s.completed) (hsatisfied : t.satisfied = s.satisfied) :
    Paid t := by
  refine hp.keep (fun x job hx => ?_) (fun a ha hid => ?_) hsatisfied
  · rw [hworkers, workers_setWorker] at hx
    split at hx
    · exact absurd hx (hv job)
    · exact hx
  · exact ⟨haccepted ▸ ha, hcompleted ▸ hid⟩

/-- The worker has seen to the promise, or the job has none. -/
theorem Paid.settle (hp : Paid s) {w : Fin n} {job : Job} {satisfied : List Nat}
    (hsub : ∀ p ∈ s.satisfied, p ∈ satisfied)
    (hjob : ∀ p, job.resultPromise = some p → p ∈ satisfied) :
    Paid { Pool.setWorker s w (.settled job) with satisfied := satisfied } where
  settled x j hx p hj := by
    have hx : (Pool.setWorker s w (.settled job)).workers x = .settled j := hx
    rw [workers_setWorker] at hx
    split at hx
    · rw [Worker.settled.injEq] at hx
      exact hjob p (hx ▸ hj)
    · exact hsub p (hp.settled x j hx p hj)
  completed a ha hid p hj := hsub p (hp.completed a ha hid p hj)

/-- A job accepted under the id of one in a worker's hands has its promise. -/
theorem promise_eq (hi : Inv s) {w : Fin n} {job a : Job} (hw : (s.workers w).job? = some job)
    (ha : a ∈ s.accepted) (hid : a.id = job.id) : a.resultPromise = job.resultPromise := by
  rcases hi.inHands w job hw with ⟨b, hb, hbid, hbp, _⟩
  rw [List.inj_on_of_nodup_map hi.ids ha hb (hid.trans hbid.symm), hbp]

theorem paid_moves (hi : Inv s) (hp : Paid s) (h : Moves sched s a t) : Paid t := by
  cases h with
  | enqueues sub wake ws hnew hwake =>
      refine hp.keep (fun x job hx => (notifyOne_eq hwake (by simp) (by simp) x).mp hx)
        (fun a ha hid => ⟨?_, hid⟩) rfl
      -- a new job has an id that nothing was completed under
      rcases List.mem_append.mp ha with ha | ha
      · exact ha
      · rw [List.mem_singleton] at ha
        subst ha
        have hplace := hi.place sub.job.id
        have hpos : 0 < s.completed.count sub.job.id := List.count_pos_iff.mpr hid
        have hmem : sub.job.id ∈ s.accepted.map Job.id := List.count_pos_iff.mp (by omega)
        rcases List.mem_map.mp hmem with ⟨b, hb, hbid⟩
        exact absurd hbid (((isNew_iff sub s.accepted).mp hnew) b hb).1
  | enters w hw hr => exact hp.setWorker (by simp) rfl rfl rfl rfl
  | leaves w hw hr => exact hp.setWorker (by simp) rfl rfl rfl rfl
  | blocks w hw hj hs => exact hp.setWorker (by simp) rfl rfl rfl rfl
  | departs w hw hj hs => exact hp.setWorker (by simp) rfl rfl rfl rfl
  | takes w job rest hw hg => exact hp.setWorker (by simp) rfl rfl rfl rfl
  | wakes w hw => exact hp.setWorker (by simp) rfl rfl rfl rfl
  | preempts w job res pid uniqueId hw hpre => exact hp.setWorker (by simp) rfl rfl rfl rfl
  | finishes w job res pid uniqueId hw hpre => exact hp.setWorker (by simp) rfl rfl rfl rfl
  | requeues w job wake ws hw hwake =>
      have hset : Paid (Pool.setWorker s w .atLoopHead) := hp.setWorker (by simp) rfl rfl rfl rfl
      exact hset.keep (fun x job hx => (notifyOne_eq hwake (by simp) (by simp) x).mp hx)
        (fun a ha hid => ⟨ha, hid⟩) rfl
  | files w job res hw => exact hp.setWorker (by simp) rfl rfl rfl rfl
  | reports w job res hw => exact hp.setWorker (by simp) rfl rfl rfl rfl
  | passes w job res hw hnone =>
      exact hp.settle (fun _ h => h) fun p hjob => absurd (hnone.symm.trans hjob) (by simp)
  | breaks w job res p hw hjob hset => exact hp.setWorker (by simp) rfl rfl rfl rfl
  | pays w job res p hw hjob hset =>
      refine hp.settle (fun _ h => List.mem_cons_of_mem _ h) fun q hq => ?_
      rw [Option.some.inj (hq.symm.trans hjob)]
      exact List.mem_cons_self
  | ends w job hw =>
      have hset : Paid (Pool.setWorker s w .atLoopHead) := hp.setWorker (by simp) rfl rfl rfl rfl
      refine ⟨hset.settled, fun a ha hid p hj => ?_⟩
      rcases List.mem_cons.mp hid with hid | hid
      -- the job completed now is the one the worker had settled
      · rw [promise_eq hi (by rw [hw]; rfl) ha hid] at hj
        exact hp.settled w job hw p hj
      · exact hp.completed a ha hid p hj
  | clears hs => exact ⟨hp.settled, hp.completed⟩
  | stops hs =>
      exact hp.keep (fun x job hx => (notifyAll_eq s.workers (by simp) (by simp) x).mp hx)
        (fun a ha hid => ⟨ha, hid⟩) rfl
  | joins hs hw => exact ⟨hp.settled, hp.completed⟩

/-! ## Who is left -/

/-- Somebody is left for a deque with a job in it; nobody has left before
    `stop` is called, and everybody has when it returns. -/
structure Staffed (s : State n) : Prop where
  attended : s.jobs ≠ [] → ∃ w, s.workers w ≠ .gone
  opened : s.stopper = .notCalled →
    s.running = true ∧ s.stopping = false ∧ ∀ w, s.workers w ≠ .gone
  closed : s.stopper = .returned → ∀ w, s.workers w = .gone

/-- A worker that is there moves on and stays; the deque may change. -/
theorem Staffed.stay (hs : Staffed s) {w : Fin n} {v : Worker} (hw : s.workers w ≠ .gone)
    (hv : v ≠ .gone)
    (hworkers : ∀ x, t.workers x = .gone ↔ (Pool.setWorker s w v).workers x = .gone)
    (hstopper : t.stopper = s.stopper) (hrunning : t.running = s.running)
    (hstopping : t.stopping = s.stopping) : Staffed t where
  attended _ := by
    refine ⟨w, fun h => hv ?_⟩
    rw [hworkers, workers_setWorker, if_pos rfl] at h
    exact h
  opened h := by
    rcases hs.opened (hstopper ▸ h) with ⟨hr, hp, hg⟩
    refine ⟨hrunning ▸ hr, hstopping ▸ hp, fun x hx => ?_⟩
    rw [hworkers, workers_setWorker] at hx
    split at hx
    · exact hv hx
    · exact hg x hx
  closed h := absurd (hs.closed (hstopper ▸ h) w) hw

/-- A worker leaves after `stop` was called; the deque is empty or another
    worker is left. -/
theorem Staffed.leave (hs : Staffed s) {w : Fin n} (hw : s.workers w ≠ .gone)
    (hcalled : s.stopper ≠ .notCalled) (hrest : s.jobs ≠ [] → ∃ x, x ≠ w ∧ s.workers x ≠ .gone) :
    Staffed (Pool.setWorker s w .gone) where
  attended h := by
    rcases hrest h with ⟨x, hxw, hx⟩
    exact ⟨x, by rwa [setWorker_workers_other s w x _ hxw]⟩
  opened h := absurd h hcalled
  closed h := absurd (hs.closed h w) hw

theorem staffed_moves (hi : Inv s) (hs : Staffed s) (h : Moves sched s a t)
    (hcall : (∃ sub wake, a = .enqueue sub wake) → s.stopper = .notCalled)
    (hg : Attended s a) : Staffed t := by
  cases h with
  | enqueues sub wake ws hnew hwake =>
      have hgone := fun x => notifyOne_eq hwake (v := .gone) (by simp) (by simp) x
      rcases hs.opened (hcall ⟨sub, wake, rfl⟩) with ⟨hr, hp, hall⟩
      have hall' : ∀ x, ws x ≠ .gone := fun x hx => hall x ((hgone x).mp hx)
      exact ⟨fun _ => ⟨⟨0, hg⟩, hall' _⟩, fun _ => ⟨hr, hp, hall'⟩,
        fun h => absurd ((hcall ⟨sub, wake, rfl⟩).symm.trans h) (by simp)⟩
  | enters w hw hr => exact hs.stay (by simp [hw]) (by simp) (fun _ => Iff.rfl) rfl rfl rfl
  | leaves w hw hr =>
      -- the flag is cleared, so `stop` was called; the condition says who is left
      have hcalled : s.stopper ≠ .notCalled := fun h => by
        rw [(hs.opened h).1] at hr
        exact Bool.false_ne_true hr.symm
      refine hs.leave (by simp [hw]) hcalled fun hne => ?_
      rcases hg with hg | hg | hg
      · rw [hr] at hg
        exact absurd hg Bool.false_ne_true
      · exact absurd hg hne
      · exact hg
  | blocks w hw hj hs' => exact hs.stay (by simp [hw]) (by simp) (fun _ => Iff.rfl) rfl rfl rfl
  | departs w hw hj hstop =>
      -- `dequeue` returns nothing only when the deque is empty
      have hcalled : s.stopper ≠ .notCalled := fun h => by
        rw [(hs.opened h).2.1] at hstop
        exact Bool.false_ne_true hstop
      exact hs.leave (by simp [hw]) hcalled fun hne => absurd hj hne
  | takes w job rest hw hget =>
      exact hs.stay (by simp [hw]) (by simp) (fun _ => Iff.rfl) rfl rfl rfl
  | wakes w hw => exact hs.stay (by simp [hw]) (by simp) (fun _ => Iff.rfl) rfl rfl rfl
  | preempts w job res pid uniqueId hw hpre =>
      exact hs.stay (by simp [hw]) (by simp) (fun _ => Iff.rfl) rfl rfl rfl
  | finishes w job res pid uniqueId hw hpre =>
      exact hs.stay (by simp [hw]) (by simp) (fun _ => Iff.rfl) rfl rfl rfl
  | requeues w job wake ws hw hwake =>
      exact hs.stay (w := w) (v := .atLoopHead) (by simp [hw]) (by simp)
        (fun x => notifyOne_eq hwake (by simp) (by simp) x) rfl rfl rfl
  | files w job res hw =>
      exact hs.stay (w := w) (by simp [hw]) (by simp) (fun _ => Iff.rfl) rfl rfl rfl
  | reports w job res hw =>
      exact hs.stay (w := w) (by simp [hw]) (by simp) (fun _ => Iff.rfl) rfl rfl rfl
  | passes w job res hw hnone =>
      exact hs.stay (w := w) (by simp [hw]) (by simp) (fun _ => Iff.rfl) rfl rfl rfl
  | breaks w job res p hw hjob hset => exact absurd hset (inv_unset hi hw hjob)
  | pays w job res p hw hjob hset =>
      exact hs.stay (w := w) (by simp [hw]) (by simp) (fun _ => Iff.rfl) rfl rfl rfl
  | ends w job hw => exact hs.stay (w := w) (by simp [hw]) (by simp) (fun _ => Iff.rfl) rfl rfl rfl
  | clears hstop => exact ⟨hs.attended, fun h => absurd h (by simp), fun h => absurd h (by simp)⟩
  | stops hstop =>
      have hgone := fun x => notifyAll_eq s.workers (v := .gone) (by simp) (by simp) x
      refine ⟨fun hne => ?_, fun h => absurd h (by simp), fun h => absurd h (by simp)⟩
      rcases hs.attended hne with ⟨w, hw⟩
      exact ⟨w, fun h => hw ((hgone w).mp h)⟩
  | joins hstop hall => exact ⟨hs.attended, fun h => absurd h (by simp), fun _ => hall⟩

/-! ## A deque nobody is left for -/

/-- The deque holds a job and every worker is gone. -/
def Abandoned (s : State n) : Prop := s.jobs ≠ [] ∧ ∀ w, s.workers w = .gone

theorem abandoned_of_unattended (h : Moves sched s a t) (hg : ¬ Attended s a) : Abandoned t := by
  cases h with
  | enqueues sub wake ws hnew hwake =>
      exact ⟨List.append_ne_nil_of_right_ne_nil _ (List.cons_ne_nil _ _),
        fun w => absurd (Nat.zero_lt_of_lt w.isLt) hg⟩
  | enters w hw hr => exact absurd (Or.inl hr) hg
  | leaves w hw hr =>
      simp only [Attended, not_or, not_exists, not_and, ne_eq, not_not] at hg
      refine ⟨hg.2.1, fun x => ?_⟩
      rw [workers_setWorker]
      split
      · rfl
      · rename_i hxw
        exact hg.2.2 x hxw
  | _ => exact absurd trivial hg

/-- Whatever a worker does, it is there to do it. -/
theorem abandoned_moves (hs : Abandoned s) (h : Moves sched s a t) : Abandoned t := by
  rcases hs with ⟨hne, hall⟩
  have hbusy : ∀ {w v}, s.workers w = v → v ≠ .gone → False :=
    fun {w v} hw hv => hv (hw.symm.trans (hall w))
  cases h with
  | enqueues sub wake ws hnew hwake =>
      exact ⟨List.append_ne_nil_of_right_ne_nil _ (List.cons_ne_nil _ _),
        fun w => (notifyOne_eq hwake (by simp) (by simp) w).mpr (hall w)⟩
  | clears hstop => exact ⟨hne, hall⟩
  | stops hstop =>
      exact ⟨hne, fun w => (notifyAll_eq s.workers (by simp) (by simp) w).mpr (hall w)⟩
  | joins hstop _ => exact ⟨hne, hall⟩
  | enters w hw hr => exact (hbusy hw (by simp)).elim
  | leaves w hw hr => exact (hbusy hw (by simp)).elim
  | blocks w hw hj hs' => exact (hbusy hw (by simp)).elim
  | departs w hw hj hs' => exact (hbusy hw (by simp)).elim
  | takes w job rest hw hget => exact (hbusy hw (by simp)).elim
  | wakes w hw => exact (hbusy hw (by simp)).elim
  | preempts w job res pid uniqueId hw hpre => exact (hbusy hw (by simp)).elim
  | finishes w job res pid uniqueId hw hpre => exact (hbusy hw (by simp)).elim
  | requeues w job wake ws hw hwake => exact (hbusy hw (by simp)).elim
  | files w job res hw => exact (hbusy hw (by simp)).elim
  | reports w job res hw => exact (hbusy hw (by simp)).elim
  | passes w job res hw hnone => exact (hbusy hw (by simp)).elim
  | breaks w job res p hw hjob hset => exact (hbusy hw (by simp)).elim
  | pays w job res p hw hjob hset => exact (hbusy hw (by simp)).elim
  | ends w job hw => exact (hbusy hw (by simp)).elim

/-! ## The drain -/

/-- What the steps preserve, with and without the condition. -/
structure Draining (s : State n) : Prop where
  inv : Inv s
  paid : Paid s

theorem draining_step (hs : Draining s) (h : stepUntilStop sched s a = some t) : Draining t :=
  have hstep := (step_of_stepUntilStop h).1
  ⟨inv_step hs.inv hstep, paid_moves hs.inv hs.paid (moves_of_step hstep)⟩

theorem draining_init : Draining (init n) where
  inv := inv_init
  paid := ⟨fun w job h => absurd h (by simp [init]), fun a ha => absurd ha List.not_mem_nil⟩

theorem staffed_init : Staffed (init n) where
  attended h := absurd rfl h
  opened _ := ⟨rfl, rfl, fun w => by simp [init]⟩
  closed h := absurd h (by simp [init])

/-- Once every worker is gone, a job that is not in the deque is completed. -/
theorem drained_of_empty (hs : Draining s) (hall : ∀ w, s.workers w = .gone)
    (hempty : s.jobs = []) : Drained s := by
  have hidle : ∀ p i, tally (stage p i) s.workers = 0 := fun p i =>
    Finset.sum_eq_zero fun w _ => stage_of_idle (by rw [hall w]; rfl)
  have hdone : ∀ a ∈ s.accepted, s.completed.count a.id = 1 := by
    intro a ha
    have hone := inv_place_one hs.inv (List.mem_map.mpr ⟨a, ha, rfl⟩)
    have hzero : holders s a.id = 0 := hidle _ _
    rw [hempty, hzero] at hone
    simpa only [List.map_nil, List.count_nil, Nat.zero_add] using hone
  refine ⟨hempty, fun a ha => ⟨?_, ?_⟩, fun a ha => ?_, fun a ha hunreaped => ?_⟩
  · rw [hs.inv.filed, Pool.filed, hidle, hdone a ha]
  · refine List.count_pos_iff.mp ?_
    rw [hs.inv.reported, Pool.reported, hidle, hdone a ha]
    exact Nat.one_pos
  · refine hs.paid.completed a ha (List.count_pos_iff.mp ?_)
    rw [hdone a ha]
    exact Nat.one_pos
  -- Neither the deque nor a worker has a process to show.
  · rcases hunreaped with ⟨_, job, hjob, _⟩ | ⟨w, job, _, hw | hw⟩
    · rw [hempty] at hjob
      exact absurd hjob List.not_mem_nil
    · exact absurd ((hall w).symm.trans hw) (by simp)
    · exact absurd ((hall w).symm.trans hw) (by simp)

/-- For any number of workers, jobs accepted before `stop` is called, outcomes
    and interleaving: when `stop` has returned, the drain was complete exactly
    when there was a worker to enqueue for and no worker, finding `running_`
    cleared at the head of its loop, was the last to leave a deque with a job
    in it. -/
theorem drained_iff_attended (sched : Scheduler) (n : Nat) (actions : List (Action n))
    (s : State n) (h : Lts.run (stepUntilStop sched) (init n) actions = some s)
    (hreturned : s.stopper = .returned) :
    Drained s ↔ Lts.Along (stepUntilStop sched) Attended (init n) actions := by
  have hdraining : Draining s :=
    Lts.run_invariant (fun _ _ _ hs hstep => draining_step hs hstep) draining_init h
  constructor
  · intro hd
    refine Lts.along_of_not_end (fun _ _ _ hs hstep => draining_step hs hstep)
      (fun u b v _ hstep hg => ?_) (fun u b v _ hq hstep => ?_) draining_init h
      (fun hq : Abandoned s => hq.1 hd.empty)
    · exact abandoned_of_unattended (moves_of_step (step_of_stepUntilStop hstep).1) hg
    · exact abandoned_moves hq (moves_of_step (step_of_stepUntilStop hstep).1)
  · intro hg
    have halways := Lts.always_of_along (P := fun u : State n => Draining u ∧ Staffed u)
      (fun u b v hu hb hstep => ⟨draining_step hu.1 hstep,
        staffed_moves hu.1.inv hu.2 (moves_of_step (step_of_stepUntilStop hstep).1)
          (step_of_stepUntilStop hstep).2 hb⟩)
      actions ⟨draining_init, staffed_init⟩ hg
    have hstaffed := (Lts.always_end halways h).2
    have hall := hstaffed.closed hreturned
    refine drained_of_empty hdraining hall ?_
    -- Everybody is gone, so the deque cannot hold anything.
    by_contra hne
    rcases hstaffed.attended hne with ⟨w, hw⟩
    exact hw (hall w)

/-- One job, completed before the stop: the worker finds the deque empty. -/
theorem drained_one_job :
    ∃ s : State 1, s.stopper = .returned ∧ s.completed = [1] ∧
      (Drained s ↔ Lts.Along (stepUntilStop .fcfs) Attended (init 1)
        [.enqueue { id := 1, cmd := {}, resultPromise := some 7 } none, .testRunning 0, .dequeue 0,
          .execute 0 { success := true } 100 1, .callSubmitResult 0, .returnFromSubmitResult 0,
          .setPromise 0, .endIteration 0, .testRunning 0, .clearRunning, .stopQueue, .dequeue 0,
          .joinWorkers]) :=
  ⟨_, rfl, rfl, drained_iff_attended .fcfs 1 _ _ rfl rfl⟩

/-- One worker at the head of its loop and one job in the deque: the worker
    reads the cleared flag first, and `stop` returns with the job still there. -/
theorem queued_job_dropped : ¬ ∀ (sched : Scheduler) (n : Nat) (actions : List (Action n))
    (s : State n), Lts.run (stepUntilStop sched) (init n) actions = some s →
    s.stopper = .returned → Drained s := by
  intro h
  have hd := h .fcfs 1 [.enqueue { id := 1, cmd := {}, resultPromise := some 7 } none,
    .clearRunning, .testRunning 0, .stopQueue, .joinWorkers] _ rfl rfl
  exact absurd hd.empty (List.cons_ne_nil _ _)

end Pool

end Isolyx
