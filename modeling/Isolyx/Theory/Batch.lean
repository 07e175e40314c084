import Isolyx.Core.Schedule
import Isolyx.Theory.ExactlyOnce

/-!
# One Worker and a Batch

That `schedule` is what the pool does. With one worker and no arrivals there is
always one list that decides how the run goes on: the deque, and behind it what
will come back of the job in the worker's hands. Taking a job is one turn of a
server on that list, and no other step changes it (`view_moves`). So a run
takes the turns of the server one after the other, and a finished run has taken
them all (`order_eq_schedule`).

What an execution writes into a job, its pid and its output's number, no
scheduler looks at. The list is therefore one of jobs with these two wiped. The
counter of bursts is one that `MLFQScheduler` looks at, but only modulo `2 ^ 32`
(`key_blank`), so the list may as well have the number itself.

## Main definitions

* `blank`: A job without the traces of its executions but their number.
* `view`: The list that decides how a run goes on.
* `Complies`: A run without arrivals, with the bursts the jobs need.

## Theorems

* `key_blank`: A counter that overflowed does as well as one that did not.
* `getNextJob_blank`: A scheduler does not look at what is wiped.
* `view_moves`: A step is a turn of the server, or none.
* `serves_view`: A run is some of its turns.
* `order_isPrefix`: The jobs dequeued are the first ones of the schedule.
* `order_eq_schedule`: A finished run has dequeued all of it.
* `complies_iteration`: An iteration of the worker leaves less to do.
* `exists_finished`: Every batch has a run that finishes it.
-/

namespace Isolyx

namespace Pool

open MLFQScheduler (demote demote_id)
open Service (Serves)

variable {n : Nat} {sched : Scheduler} {d : Nat → Nat}

/-- The job as it was before it was executed, and how often it was requeued. -/
def blank (requeued : List Nat) (job : Job) : Job :=
  { job with pid := -1, uniqueId := 0, elapsedBursts := requeued.count job.id }

theorem key_blank {requeued : List Nat} {job : Job}
    (h : job.elapsedBursts = int32 (requeued.count job.id)) :
    MLFQScheduler.key (blank requeued job) = MLFQScheduler.key job := by
  rw [MLFQScheduler.key, MLFQScheduler.key, h, int32_add]
  rfl

/-- A job that was not requeued is as it was. -/
theorem blank_cons {requeued : List Nat} {i : Nat} {job : Job} (h : job.id ≠ i) :
    blank (i :: requeued) job = blank requeued job := by
  rw [blank, blank, List.count_cons_of_ne h.symm]

theorem getNextJob_blank (sched : Scheduler) {requeued : List Nat} {jobs : List Job}
    (h : ∀ job ∈ jobs, job.elapsedBursts = int32 (requeued.count job.id)) :
    sched.getNextJob (jobs.map (blank requeued))
      = (sched.getNextJob jobs).map (Prod.map (blank requeued) (List.map (blank requeued))) := by
  cases sched with
  | fcfs | roundRobin =>
      cases jobs with
      | nil => rfl
      | cons job jobs => rfl
  | priority =>
      simp only [Scheduler.getNextJob, PriorityScheduler.getNextJob, Select.maxElement,
        Select.minElement_map, Select.takeAt_map]
      rfl
  | mlfq =>
      -- the keys are compared, and they are the same
      have hkeys : (jobs.map (blank requeued)).map MLFQScheduler.key
          = jobs.map MLFQScheduler.key := by
        rw [List.map_map]
        exact List.map_congr_left fun job hjob => key_blank (h job hjob)
      have hleast : ∀ l : List Job, Select.minElement
          (fun a b => decide (MLFQScheduler.key a < MLFQScheduler.key b)) l
            = Select.minElement (fun a b => decide (a < b)) (l.map MLFQScheduler.key) :=
        fun l => (Select.minElement_map (fun a b : Int => decide (a < b)) MLFQScheduler.key l).symm
      rw [Scheduler.getNextJob, MLFQScheduler.getNextJob, MLFQScheduler.getNextJob, hleast,
        hleast, hkeys, Select.takeAt_map]

/-- What will come back from a worker. -/
def pending (d : Nat → Nat) (requeued : List Nat) : Worker → List Job
  | .executing job => (resubmitted d (blank requeued job)).toList
  | .requeueing job => [blank (job.id :: requeued) job]
  | _ => []

theorem pending_of_idle {requeued : List Nat} {v : Worker} (h : v.job? = none) :
    pending d requeued v = [] := by
  cases v <;> first | rfl | simp only [Worker.job?, reduceCtorEq] at h

/-- A job that needs another burst comes back with one more behind it. -/
theorem resubmitted_blank {requeued : List Nat} {job : Job}
    (h : requeued.count job.id + 1 < d job.id) :
    resubmitted d (blank requeued job) = some (blank (job.id :: requeued) job) := by
  have hgo : (blank requeued job).elapsedBursts + 1 < d (blank requeued job).id := by
    simp only [blank]
    omega
  rw [resubmitted, if_pos hgo, blank, blank, List.count_cons_self]
  rfl

theorem resubmitted_last {requeued : List Nat} {job : Job}
    (h : ¬ requeued.count job.id + 1 < d job.id) : resubmitted d (blank requeued job) = none := by
  have hlast : ¬ (blank requeued job).elapsedBursts + 1 < d (blank requeued job).id := by
    simp only [blank]
    omega
  exact if_neg hlast

/-- The deque, and behind it what will come back from the worker. -/
def view (d : Nat → Nat) (s : State 1) : List Job :=
  s.jobs.map (blank s.requeued) ++ pending d s.requeued (s.workers 0)

theorem view_setWorker (s : State 1) (w : Fin 1) (v : Worker) :
    view d (setWorker s w v) = s.jobs.map (blank s.requeued) ++ pending d s.requeued v := by
  rw [view, Subsingleton.elim w 0, setWorker_workers_self]
  rfl

theorem view_same {s t : State 1} (w : Fin 1) (hjobs : t.jobs = s.jobs)
    (hrequeued : t.requeued = s.requeued)
    (hw : pending d s.requeued (t.workers w) = pending d s.requeued (s.workers w)) :
    view d t = view d s := by
  rw [Subsingleton.elim w 0] at hw
  rw [view, view, hjobs, hrequeued, hw]

/-- A step that takes a job is one turn of a server with the scheduler's
    discipline, and any other step is none. -/
theorem view_moves {s t : State 1} {a : Action 1} (hi : Inv s) (h : Moves sched s a t)
    (hf : Follows d s a) (ha : ∀ sub wake, a ≠ .enqueue sub wake) :
    Serves sched.getNextJob (resubmitted d) (view d s)
      ((taken sched s a).toList.map (blank s.requeued)) (view d t) := by
  have hnone : ∀ {u : State 1}, view d u = view d s →
      Serves sched.getNextJob (resubmitted d) (view d s) [] (view d u) :=
    fun hu => hu ▸ Service.Serves.done _
  cases h with
  | takes w job rest hw hg =>
      have hview : view d s = s.jobs.map (blank s.requeued) := by
        rw [view, ← Subsingleton.elim w 0, hw]
        exact List.append_nil _
      have hpick := getNextJob_blank sched fun job hjob => (hi.queued job hjob).bursts
      rw [hg, Option.map_some, Prod.map_apply] at hpick
      rw [taken, if_pos hw, hg, hview, view_setWorker]
      exact Service.serves_one hpick
  | blocks w hw hj hq | departs w hw hj hq =>
      rw [taken, if_pos hw, hj]
      have : (sched.getNextJob []).map Prod.fst = none := by cases sched <;> rfl
      rw [this]
      exact hnone (view_same w rfl rfl (by simp only [setWorker_workers_self, hw, pending]))
  | preempts w job res pid uid hw hp =>
      -- the job comes back, as it has bursts to go
      refine hnone (view_same w rfl rfl ?_)
      rw [setWorker_workers_self, hw, pending, pending, resubmitted_blank ((hf job hw).mp hp)]
      rfl
  | finishes w job res pid uid hw hp =>
      refine hnone (view_same w rfl rfl ?_)
      have hlast : ¬ s.requeued.count job.id + 1 < d job.id := by
        rw [← hf job hw, hp]
        exact Bool.false_ne_true
      rw [setWorker_workers_self, hw, pending, pending, resubmitted_last hlast]
      · rfl
      · exact nofun
      · exact nofun
  | enqueues sub wake => exact absurd rfl (ha sub wake)
  | requeues w job wake ws hw hwake =>
      have hhead : ws 0 = .atLoopHead := by
        refine (notifyOne_eq hwake (by simp only [ne_eq, reduceCtorEq, not_false_eq_true])
          (by simp only [ne_eq, reduceCtorEq, not_false_eq_true]) 0).mpr ?_
        rw [Subsingleton.elim w 0, setWorker_workers_self]
      -- it is the only job whose number changes
      have hothers : s.jobs.map (blank (job.id :: s.requeued)) = s.jobs.map (blank s.requeued) :=
        List.map_congr_left fun x hx => blank_cons fun hid =>
          (inv_alone hi (congrArg Worker.job? hw)).1 (List.mem_map.mpr ⟨x, hx, hid⟩)
      refine hnone ?_
      rw [Subsingleton.elim w 0] at hw
      simp only [view, hw, hhead, pending, List.map_append, List.map_singleton, List.append_nil,
        hothers]
      rfl
  | clears hs | joins hs hw => exact hnone rfl
  | stops hs =>
      refine hnone ?_
      simp only [view, notifyAll]
      split
      · rename_i hw
        rw [hw]
        rfl
      · rfl
  | breaks w job res p hw | pays w job res p hw | files w job res hw | reports w job res hw
    | ends w job hw | enters w hw | leaves w hw | wakes w hw | passes w job res hw =>
      refine hnone (view_same w rfl rfl ?_)
      simp only [setWorker, Function.update_self, hw, pending]

/-- A run without arrivals takes turns of the server. -/
theorem serves_view {s t : State 1} {actions : List (Action 1)} (hi : Inv s)
    (hr : Lts.run (step sched) s actions = some t)
    (hclosed : ∀ a ∈ actions, ∀ sub wake, a ≠ .enqueue sub wake)
    (hf : Lts.Along (step sched) (Follows d) s actions) :
    ∃ xs, Serves sched.getNextJob (resubmitted d) (view d s) xs (view d t) ∧
      xs.map Job.id = (served sched s actions).map Job.id := by
  induction actions generalizing s with
  | nil =>
      simp only [Lts.run, Option.some.injEq] at hr
      exact ⟨[], hr ▸ .done _, rfl⟩
  | cons a actions ih =>
      rcases Lts.run_cons.mp hr with ⟨s', hs', hr'⟩
      have hone := view_moves hi (moves_of_step hs') (hf s' hs').1 (hclosed a List.mem_cons_self)
      rcases ih (inv_step hi hs') hr' (fun b hb => hclosed b (List.mem_cons_of_mem a hb))
        (hf s' hs').2 with ⟨xs, hrest, hids⟩
      refine ⟨_, hone.trans hrest, ?_⟩
      rw [served, Lts.trace_cons hs', List.map_append, List.map_append, List.map_map, hids]
      rfl

/-- No job was taken yet. -/
structure Untouched (s : State n) : Prop where
  fresh : ∀ job ∈ s.jobs, job.elapsedBursts = 0 ∧ blank [] job = job
  requeued : s.requeued = []
  idle : ∀ w, (s.workers w).job? = none

theorem untouched_moves {s t : State n} {a : Action n} (hs : Untouched s)
    (h : Moves sched s a t) (ha : taken sched s a = none) : Untouched t := by
  -- nobody holds a job, so only the steps before one is taken are left
  have hhold : ∀ w job, (s.workers w).job? ≠ some job := fun w job hw =>
    Option.some_ne_none job (hw.symm.trans (hs.idle w))
  have hset : ∀ {w : Fin n} {v : Worker}, v.job? = none → Untouched (setWorker s w v) := by
    intro w v hv
    refine ⟨hs.fresh, hs.requeued, fun x => ?_⟩
    rw [workers_setWorker]
    split
    · exact hv
    · exact hs.idle x
  cases h with
  | enqueues sub wake ws hnew hwake =>
      refine ⟨fun job hjob => ?_, hs.requeued,
        fun w => (job?_notifyOne hwake w).trans (hs.idle w)⟩
      rcases List.mem_append.mp hjob with hjob | hjob
      · exact hs.fresh job hjob
      · rw [List.mem_singleton.mp hjob]
        exact ⟨rfl, rfl⟩
  | takes w job rest hw hg =>
      rw [taken, if_pos hw, hg] at ha
      exact absurd ha (by simp only [Option.map_some, reduceCtorEq, not_false_eq_true])
  | enters w hw | leaves w hw | blocks w hw | departs w hw | wakes w hw => exact hset rfl
  | clears hq | joins hq hw => exact ⟨hs.fresh, hs.requeued, hs.idle⟩
  | stops hq =>
      exact ⟨hs.fresh, hs.requeued, fun w => (job?_notifyAll s.workers w).trans (hs.idle w)⟩
  | preempts w job res pid uid hw | finishes w job res pid uid hw | requeues w job wake ws hw
    | files w job res hw | reports w job res hw | passes w job res hw | breaks w job res p hw
    | pays w job res p hw | ends w job hw => exact absurd (congrArg Worker.job? hw) (hhold w job)

theorem untouched_init : Untouched (init n) :=
  ⟨fun _ hjob => absurd hjob List.not_mem_nil, rfl, fun _ => rfl⟩

/-- How many bursts a job still needs. -/
def remaining (d : Nat → Nat) (job : Job) : Nat := (d job.id - job.elapsedBursts).toNat

theorem resubmitted_remaining {job job' : Job} (h : resubmitted d job = some job') :
    0 < remaining d job' ∧ remaining d job' < remaining d job := by
  rw [resubmitted, Option.ite_none_right_eq_some, Option.some.injEq] at h
  rcases h with ⟨hgo, rfl⟩
  simp only [remaining]
  omega

theorem getNextJob_nil (sched : Scheduler) : sched.getNextJob [] = none := by
  cases sched <;> rfl

/-- The schedule of a batch that was not started leaves nothing to do. -/
theorem serves_schedule (sched : Scheduler) {batch : List Job}
    (hfresh : ∀ job ∈ batch, job.elapsedBursts = 0) (hd : ∀ job ∈ batch, 0 < d job.id) :
    Serves sched.getNextJob (resubmitted d) batch
      (Service.serve sched.getNextJob (resubmitted d) (batch.map fun job => d job.id).sum batch)
      [] := by
  have hwork : ∀ job ∈ batch, remaining d job = d job.id := by
    intro job hjob
    rw [remaining, hfresh job hjob, Int.sub_zero, Int.toNat_natCast]
  refine Service.serves_serve (remaining d) (fun q hq => sched.getNextJob_isSome hq)
    (fun q x rest hq => Scheduler.getNextJob_perm hq) (fun x y hxy => resubmitted_remaining hxy)
    _ batch (fun job hjob => ?_) ?_
  · rw [hwork job hjob]
    exact hd job hjob
  · rw [List.map_congr_left hwork]

namespace BatchRun

variable (r : BatchRun sched d)

theorem untouched_start : Untouched r.start := by
  refine Lts.end_of_along (G := fun s a => taken sched s a = none)
    (fun s a t hs ha h => untouched_moves hs (moves_of_step h) ha) untouched_init
    (Lts.along_of_trace_nil r.untouched) r.reaches

theorem view_start : view d r.start = r.batch := by
  have hs := r.untouched_start
  rw [view, pending_of_idle (hs.idle 0), List.append_nil, batch, hs.requeued]
  calc r.start.jobs.map (blank []) = r.start.jobs.map id :=
        List.map_congr_left fun job hjob => (hs.fresh job hjob).2
    _ = r.start.jobs := List.map_id _

theorem fresh : ∀ job ∈ r.batch, job.elapsedBursts = 0 := fun job hjob =>
  (r.untouched_start.fresh job hjob).1

/-- The jobs dequeued are the first ones of the schedule. -/
theorem order_isPrefix (hd : ∀ job ∈ r.batch, 0 < d job.id) :
    r.order <+: schedule sched d r.batch := by
  have hall := serves_schedule sched r.fresh hd
  rcases serves_view (inv_run r.reaches) r.runs r.closed r.follows with ⟨xs, hsome, hids⟩
  rw [r.view_start] at hsome
  have hprefix := (hall.isPrefix (getNextJob_nil sched) hsome).map Job.id
  rwa [hids] at hprefix

/-- A finished run has dequeued the whole schedule. -/
theorem order_eq_schedule (hd : ∀ job ∈ r.batch, 0 < d job.id) (hfin : r.Finished) :
    r.order = schedule sched d r.batch := by
  have hall := serves_schedule sched r.fresh hd
  rcases serves_view (inv_run r.reaches) r.runs r.closed r.follows with ⟨xs, hsome, hids⟩
  have hend : view d r.final = [] := by
    rw [view, hfin.1, pending_of_idle (hfin.2 0)]
    rfl
  rw [r.view_start, hend] at hsome
  have heq := congrArg (List.map Job.id) (hall.unique (getNextJob_nil sched) hsome)
  rwa [hids] at heq

theorem ids_nodup : (r.batch.map Job.id).Nodup := inv_queue_nodup (inv_run r.reaches)

end BatchRun

/-! ## Every batch is finished -/

/-- The worker is between two iterations of a pool that was not stopped. -/
structure Idle (s : State 1) : Prop where
  inv : Inv s
  running : s.running = true
  head : s.workers 0 = .atLoopHead

/-- What is left to do for a deque, counting every job once more than its bursts. -/
def load (d : Nat → Nat) (requeued : List Nat) (jobs : List Job) : Nat :=
  (jobs.map fun job => d job.id - requeued.count job.id + 1).sum

theorem load_perm {requeued : List Nat} {jobs jobs' : List Job} (h : jobs.Perm jobs') :
    load d requeued jobs = load d requeued jobs' :=
  (h.map _).sum_nat

theorem load_cons (requeued : List Nat) (job : Job) (jobs : List Job) :
    load d requeued (job :: jobs)
      = d job.id - requeued.count job.id + 1 + load d requeued jobs := by
  rw [load, List.map_cons, List.sum_cons]
  rfl

/-- A job that is put back with another burst to go has one less to do. -/
theorem load_requeued {requeued : List Nat} {job : Job} {rest : List Job}
    (hgo : requeued.count job.id + 1 < d job.id) (hout : job.id ∉ rest.map Job.id) :
    load d (job.id :: requeued) (rest ++ [demote job]) < load d requeued (job :: rest) := by
  have hothers : load d (job.id :: requeued) rest = load d requeued rest := by
    refine congrArg List.sum (List.map_congr_left fun x hx => ?_)
    have hne : x.id ≠ job.id := fun hid => hout (List.mem_map.mpr ⟨x, hx, hid⟩)
    rw [List.count_cons_of_ne hne.symm]
  rw [load_perm (List.perm_append_singleton (demote job) rest), load_cons, load_cons, hothers,
    demote_id, List.count_cons_self]
  omega

/-- A run that complies. -/
structure Complies (sched : Scheduler) (d : Nat → Nat) (s : State 1) (actions : List (Action 1))
    (t : State 1) : Prop where
  runs : Lts.run (step sched) s actions = some t
  closed : ∀ a ∈ actions, ∀ sub wake, a ≠ .enqueue sub wake
  follows : Lts.Along (step sched) (Follows d) s actions

theorem Complies.nil (s : State 1) : Complies sched d s [] s :=
  ⟨rfl, fun _ ha => absurd ha List.not_mem_nil, trivial⟩

theorem Complies.cons {s u t : State 1} {a : Action 1} {actions : List (Action 1)}
    (h : step sched s a = some u) (ha : ∀ sub wake, a ≠ .enqueue sub wake)
    (hf : Follows d s a) (hrest : Complies sched d u actions t) :
    Complies sched d s (a :: actions) t where
  runs := Lts.run_cons.mpr ⟨u, h, hrest.runs⟩
  closed b hb := by
    rcases List.mem_cons.mp hb with rfl | hb
    · exact ha
    · exact hrest.closed b hb
  follows v hv := by
    rw [Option.some.inj (hv.symm.trans h)]
    exact ⟨hf, hrest.follows⟩

theorem Complies.append {s u t : State 1} {actions actions' : List (Action 1)}
    (h : Complies sched d s actions u) (h' : Complies sched d u actions' t) :
    Complies sched d s (actions ++ actions') t := by
  induction actions generalizing s with
  | nil =>
      have hu := h.runs
      simp only [Lts.run, Option.some.injEq] at hu
      exact hu ▸ h'
  | cons a actions ih =>
      rcases Lts.run_cons.mp h.runs with ⟨v, hv, hr⟩
      exact .cons hv (h.closed a List.mem_cons_self) (h.follows v hv).1
        (ih ⟨hr, fun b hb => h.closed b (List.mem_cons_of_mem a hb), (h.follows v hv).2⟩)

/-- The worker takes a job. -/
theorem complies_takes {s : State 1} (hs : Idle s) {job : Job} {rest : List Job}
    (hg : sched.getNextJob s.jobs = some (job, rest)) :
    Complies sched d s [.testRunning 0, .dequeue 0]
      (setWorker { setWorker s 0 .dequeuing with jobs := rest } 0 (.executing job)) := by
  have htest : step sched s (.testRunning 0) = some (setWorker s 0 .dequeuing) := by
    simp only [step, hs.head, hs.running, if_true]
  have hne : s.jobs.isEmpty = false := by
    rw [Bool.eq_false_iff, ne_eq, List.isEmpty_iff]
    intro hnil
    rw [hnil, getNextJob_nil] at hg
    simp only [reduceCtorEq] at hg
  have htake : step sched (setWorker s 0 .dequeuing) (.dequeue 0)
      = some (setWorker { setWorker s 0 .dequeuing with jobs := rest } 0 (.executing job)) := by
    have hjobs : (setWorker s 0 .dequeuing).jobs = s.jobs := rfl
    simp only [step, setWorker_workers_self, dequeue, hjobs, hne, Bool.false_and, Bool.and_false,
      Bool.false_eq_true, if_false, hg]
  exact .cons htest (by simp only [ne_eq, reduceCtorEq, not_false_eq_true, implies_true]) trivial
    (.cons htake (by simp only [ne_eq, reduceCtorEq, not_false_eq_true, implies_true]) trivial
      (.nil _))

theorem Complies.inv {s t : State 1} {actions : List (Action 1)}
    (h : Complies sched d s actions t) (hs : Inv s) : Inv t :=
  Lts.run_invariant (fun _ _ _ hi hstep => inv_step hi hstep) hs h.runs

/-- The job is preempted and goes back into the deque. -/
theorem complies_requeues {s : State 1} {job : Job} (hw : s.workers 0 = .executing job)
    (hgo : s.requeued.count job.id + 1 < d job.id) :
    Complies sched d s [.execute 0 { preempted := true } job.pid job.uniqueId, .requeue 0 none]
      { setWorker (setWorker s 0 (.requeueing job)) 0 .atLoopHead with
        requeued := job.id :: s.requeued
        jobs := s.jobs ++ [demote job] } := by
  have hexecute : step sched s (.execute 0 { preempted := true } job.pid job.uniqueId)
      = some (setWorker s 0 (.requeueing job)) := by
    simp only [step, hw, if_true]
  have hrequeue : step sched (setWorker s 0 (.requeueing job)) (.requeue 0 none)
      = some { setWorker (setWorker s 0 (.requeueing job)) 0 .atLoopHead with
        requeued := job.id :: s.requeued
        jobs := s.jobs ++ [demote job] } := by
    have hnone : ¬ ∃ w, (setWorker (setWorker s 0 (.requeueing job)) 0 .atLoopHead).workers w
        = .waiting := by
      rintro ⟨w, hwait⟩
      rw [Subsingleton.elim w 0, setWorker_workers_self] at hwait
      simp only [reduceCtorEq] at hwait
    simp only [step, setWorker_workers_self, enqueue, notifyOne, if_neg hnone]
    rfl
  refine .cons hexecute (by simp only [ne_eq, reduceCtorEq, not_false_eq_true, implies_true])
    (fun job' hjob' => ?_)
    (.cons hrequeue (by simp only [ne_eq, reduceCtorEq, not_false_eq_true, implies_true]) trivial
      (.nil _))
  rw [hw, Worker.executing.injEq] at hjob'
  exact ⟨fun _ => hjob' ▸ hgo, fun _ => rfl⟩

/-- A step that moves the worker on and leaves the deque. -/
structure Goes (sched : Scheduler) (s : State 1) (a : Action 1) (v : Worker) (t : State 1) :
    Prop where
  step : step sched s a = some t
  worker : t.workers 0 = v
  jobs : t.jobs = s.jobs
  requeued : t.requeued = s.requeued
  running : t.running = s.running

theorem goes_executes (sched : Scheduler) {s : State 1} {job : Job}
    (hw : s.workers 0 = .executing job) :
    ∃ t, Goes sched s (.execute 0 {} job.pid job.uniqueId) (.finished job {}) t :=
  ⟨setWorker s 0 (.finished job {}), by simp only [step, hw, Bool.false_eq_true, if_false],
    setWorker_workers_self _ _ _, rfl, rfl, rfl⟩

theorem goes_files (sched : Scheduler) {s : State 1} {job : Job} {res : ExecutionResult}
    (hw : s.workers 0 = .finished job res) :
    ∃ t, Goes sched s (.callSubmitResult 0) (.submitting job res) t :=
  ⟨{ setWorker s 0 (.submitting job res) with submissions := job.id :: s.submissions },
    by simp only [step, hw], setWorker_workers_self s 0 _, rfl, rfl, rfl⟩

theorem goes_reports (sched : Scheduler) {s : State 1} {job : Job} {res : ExecutionResult}
    (hw : s.workers 0 = .submitting job res) :
    ∃ t, Goes sched s (.returnFromSubmitResult 0) (.submitted job res) t :=
  ⟨{ setWorker s 0 (.submitted job res) with returned := job.id :: s.returned },
    by simp only [step, hw], setWorker_workers_self s 0 _, rfl, rfl, rfl⟩

/-- The promise was not set before. -/
theorem goes_pays (sched : Scheduler) {s : State 1} {job : Job} {res : ExecutionResult} (hi : Inv s)
    (hw : s.workers 0 = .submitted job res) :
    ∃ t, Goes sched s (.setPromise 0) (.settled job) t := by
  cases hp : job.resultPromise with
  | none =>
      exact ⟨setWorker s 0 (.settled job), by simp only [step, hw, hp],
        setWorker_workers_self s 0 _, rfl, rfl, rfl⟩
  | some p =>
      exact ⟨{ setWorker s 0 (.settled job) with satisfied := p :: s.satisfied },
        by simp only [step, hw, hp, if_neg (inv_unset hi hw hp)],
        setWorker_workers_self s 0 _, rfl, rfl, rfl⟩

theorem goes_ends (sched : Scheduler) {s : State 1} {job : Job} (hw : s.workers 0 = .settled job) :
    ∃ t, Goes sched s (.endIteration 0) .atLoopHead t :=
  ⟨{ setWorker s 0 .atLoopHead with completed := job.id :: s.completed },
    by simp only [step, hw], setWorker_workers_self s 0 _, rfl, rfl, rfl⟩

/-- The job is finished: its result is submitted and its promise set. -/
theorem complies_finishes (sched : Scheduler) {s : State 1} {job : Job} (hi : Inv s)
    (hw : s.workers 0 = .executing job) (hgo : ¬ s.requeued.count job.id + 1 < d job.id) :
    ∃ actions t, Complies sched d s actions t ∧ t.jobs = s.jobs ∧ t.requeued = s.requeued ∧
      t.running = s.running ∧ t.workers 0 = .atLoopHead := by
  rcases goes_executes sched hw with ⟨s₁, h₁⟩
  rcases goes_files sched h₁.worker with ⟨s₂, h₂⟩
  rcases goes_reports sched h₂.worker with ⟨s₃, h₃⟩
  rcases goes_pays sched
    (inv_step (inv_step (inv_step hi h₁.step) h₂.step) h₃.step) h₃.worker with ⟨s₄, h₄⟩
  rcases goes_ends sched h₄.worker with ⟨s₅, h₅⟩
  have hexecute : Follows d s (.execute 0 {} job.pid job.uniqueId) := by
    intro job' hjob'
    rw [hw, Worker.executing.injEq] at hjob'
    exact ⟨fun h => absurd h Bool.false_ne_true, fun h => absurd h (hjob' ▸ hgo)⟩
  refine ⟨_, s₅, .cons h₁.step ?_ hexecute (.cons h₂.step ?_ trivial (.cons h₃.step ?_ trivial
    (.cons h₄.step ?_ trivial (.cons h₅.step ?_ trivial (.nil s₅))))), ?_, ?_, ?_, h₅.worker⟩
  any_goals simp only [ne_eq, reduceCtorEq, not_false_eq_true, implies_true]
  · rw [h₅.jobs, h₄.jobs, h₃.jobs, h₂.jobs, h₁.jobs]
  · rw [h₅.requeued, h₄.requeued, h₃.requeued, h₂.requeued, h₁.requeued]
  · rw [h₅.running, h₄.running, h₃.running, h₂.running, h₁.running]

/-- One iteration of the worker, which leaves less to do. -/
theorem complies_iteration (sched : Scheduler) (d : Nat → Nat) {s : State 1} (hs : Idle s)
    (hjobs : s.jobs ≠ []) :
    ∃ actions t, Complies sched d s actions t ∧ Idle t ∧
      load d t.requeued t.jobs < load d s.requeued s.jobs := by
  rcases Option.isSome_iff_exists.mp (sched.getNextJob_isSome hjobs) with ⟨⟨job, rest⟩, hg⟩
  have htakes := complies_takes (d := d) hs hg
  have hperm := Scheduler.getNextJob_perm hg
  have hw : (setWorker { setWorker s 0 .dequeuing with jobs := rest } 0
      (.executing job)).workers 0 = .executing job := setWorker_workers_self _ _ _
  rw [load_perm hperm]
  by_cases hgo : s.requeued.count job.id + 1 < d job.id
  · have hall := htakes.append (complies_requeues hw hgo)
    have hout : job.id ∉ rest.map Job.id := by
      have hnodup := (hperm.map Job.id).nodup_iff.mp (inv_queue_nodup hs.inv)
      exact (List.nodup_cons.mp hnodup).1
    exact ⟨_, _, hall, ⟨hall.inv hs.inv, hs.running, by
      simp only [setWorker, Function.update_self]⟩, load_requeued hgo hout⟩
  · rcases complies_finishes sched (htakes.inv hs.inv) hw hgo with
      ⟨_, t, hfinish, htjobs, htrequeued, hrunning, hhead⟩
    have hall := htakes.append hfinish
    refine ⟨_, t, hall, ⟨hall.inv hs.inv, hrunning.trans hs.running, hhead⟩, ?_⟩
    rw [load_cons, htjobs, htrequeued]
    simp only [setWorker]
    omega

/-- Iteration by iteration, the worker empties the deque. -/
theorem complies_all (sched : Scheduler) (d : Nat → Nat) {s : State 1} (hs : Idle s) :
    ∃ actions t, Complies sched d s actions t ∧ t.jobs = [] ∧ t.workers 0 = .atLoopHead := by
  generalize hn : load d s.requeued s.jobs = n
  induction n using Nat.strong_induction_on generalizing s with
  | _ n ih =>
    by_cases hjobs : s.jobs = []
    · exact ⟨[], s, .nil s, hjobs, hs.head⟩
    · rcases complies_iteration sched d hs hjobs with ⟨actions, u, hone, hu, hless⟩
      rcases ih _ (hn ▸ hless) hu rfl with ⟨actions', t, hrest, ht⟩
      exact ⟨actions ++ actions', t, hone.append hrest, ht⟩

/-- The pool was started and these jobs were enqueued. -/
def enqueued (jobs : List Job) : State 1 := { init 1 with jobs := jobs, accepted := jobs }

/-- The second submission is new after the first. -/
def Distinct (a b : Submission) : Prop :=
  a.id ≠ b.id ∧ (b.resultPromise = none ∨ a.resultPromise ≠ b.resultPromise)

theorem run_enqueued (sched : Scheduler) : ∀ (subs : List Submission) (jobs : List Job),
    (∀ job ∈ jobs, ∀ sub ∈ subs, job.id ≠ sub.id ∧
      (sub.resultPromise = none ∨ job.resultPromise ≠ sub.resultPromise)) →
    subs.Pairwise Distinct →
    Lts.run (step sched) (enqueued jobs) (subs.map fun sub => .enqueue sub none)
      = some (enqueued (jobs ++ subs.map Submission.job)) := by
  intro subs
  induction subs with
  | nil =>
      intro jobs _ _
      rw [List.map_nil, List.map_nil, List.append_nil]
      rfl
  | cons sub subs ih =>
      intro jobs hnew hpair
      rcases List.pairwise_cons.mp hpair with ⟨hsub, hpair⟩
      have hstep : step sched (enqueued jobs) (.enqueue sub none)
          = some (enqueued (jobs ++ [sub.job])) := by
        have hisNew : sub.isNew (enqueued jobs).accepted = true :=
          (isNew_iff sub _).mpr fun a ha => hnew a ha sub List.mem_cons_self
        have hnone : ¬ ∃ w, (enqueued jobs).workers w = .waiting := by
          rintro ⟨w, hw⟩
          simp only [enqueued, init, reduceCtorEq] at hw
        simp only [step, if_pos hisNew, enqueue, notifyOne, if_neg hnone]
        rfl
      refine Lts.run_cons.mpr ⟨_, hstep, ?_⟩
      rw [ih _ (fun job hjob sub' hsub' => ?_) hpair, List.append_assoc, List.map_cons,
        List.singleton_append]
      rcases List.mem_append.mp hjob with hjob | hjob
      · exact hnew job hjob sub' (List.mem_cons_of_mem sub hsub')
      · rw [List.mem_singleton.mp hjob]
        exact hsub sub' hsub'

theorem served_enqueued (sched : Scheduler) (subs : List Submission) (s : State 1) :
    served sched s (subs.map fun sub => .enqueue sub none) = [] := by
  induction subs generalizing s with
  | nil => rfl
  | cons sub subs ih =>
      rw [List.map_cons, served, Lts.trace]
      split
      · rfl
      · exact ih _

/-- Every batch of distinct submissions has a run that finishes it. -/
theorem exists_finished (sched : Scheduler) (d : Nat → Nat) (subs : List Submission)
    (hpair : subs.Pairwise Distinct) :
    ∃ r : BatchRun sched d, r.batch = subs.map Submission.job ∧ r.Finished := by
  have hreach := run_enqueued sched subs [] (fun _ hjob => absurd hjob List.not_mem_nil) hpair
  rw [List.nil_append] at hreach
  have hidle : Idle (enqueued (subs.map Submission.job)) := ⟨inv_run hreach, rfl, rfl⟩
  rcases complies_all sched d hidle with ⟨actions, t, hall, hjobs, hhead⟩
  refine ⟨⟨_, actions, _, t, hreach, served_enqueued sched subs _, hall.runs, hall.closed,
    hall.follows⟩, rfl, hjobs, fun w => ?_⟩
  rw [Subsingleton.elim w 0]
  exact congrArg Worker.job? hhead

end Pool

end Isolyx
