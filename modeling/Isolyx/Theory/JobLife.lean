import Isolyx.Library.Simulation
import Isolyx.Theory.ExactlyOnce

/-!
# The Life of a Job

The pool, as one job sees it. To a job, any number of clients and workers that
move in any order are one small machine: it is accepted, waits, is started, and
either is preempted and put back to wait, or finishes and is reported. Every
step of the pool is a step of this machine for the job it is about, and none
for all the others (`simulates_life`).

So the events of one job, picked out of a run, are a run of the machine, and
this leaves no choice but how often the job is preempted (`tale_of_run`): an
accepted job that is completed went through exactly this sequence, each event
once and in this order, whatever happened to the other jobs in between
(`life_of_job`).

## Main definitions

* `Status`: Where a job can be.
* `Event`: What can happen to it.
* `next`: The machine.
* `HasStatus`: Where a job is in a state of the pool.
* `tale`: The events that lead to a status.

## Theorems

* `status_unique`: A job has one status.
* `simulates_life`: The pool simulates the machine, for every job.
* `tale_of_run`: The events of the machine, in closed form.
* `life_of_job`: What happens to a job, in every run of the pool.
-/

namespace Isolyx

namespace Pool

namespace Life

open MLFQScheduler (demote)
open Threads (tally le_tally)

variable {n : Nat} {sched : Scheduler} {s t : State n} {a : Action n} {i : Nat}

/-! ## The machine -/

/-- Where a job is while a worker has it. -/
inductive Phase where
  | executing (bursts : Int)
  | requeueing (bursts : Int)
  | finished
  | submitting
  | submitted
  | settled
  deriving DecidableEq, Repr

inductive Status where
  | unknown
  | queued (bursts : Int)
  | held (p : Phase)
  | completed
  deriving DecidableEq, Repr

inductive Event where
  | accept
  | start
  | preempt
  | requeue
  | finish
  /-- `submitResult` is called, and returns. -/
  | file
  | report
  | setPromise
  | complete
  deriving DecidableEq, Repr

/-- What a job can live to see. -/
def next : Status → Event → Option Status
  | .unknown, .accept => some (.queued 0)
  | .queued k, .start => some (.held (.executing k))
  | .held (.executing k), .preempt => some (.held (.requeueing k))
  | .held (.requeueing k), .requeue => some (.queued (int32 (k + 1)))
  | .held (.executing _), .finish => some (.held .finished)
  | .held .finished, .file => some (.held .submitting)
  | .held .submitting, .report => some (.held .submitted)
  | .held .submitted, .setPromise => some (.held .settled)
  | .held .settled, .complete => some .completed
  | _, _ => none

/-- What happens to a job that is preempted `k` times, until it is preempted no more. -/
def rounds (k : Nat) : List Event :=
  .accept :: (List.replicate k [.start, .preempt, .requeue]).flatten

/-- The events that lead to a status, with `k` preemptions before the last burst. -/
def tale (k : Nat) : Status → List Event
  | .unknown => []
  | .queued _ => rounds k
  | .held (.executing _) => rounds k ++ [.start]
  | .held (.requeueing _) => rounds k ++ [.start, .preempt]
  | .held .finished => rounds k ++ [.start, .finish]
  | .held .submitting => rounds k ++ [.start, .finish, .file]
  | .held .submitted => rounds k ++ [.start, .finish, .file, .report]
  | .held .settled => rounds k ++ [.start, .finish, .file, .report, .setPromise]
  | .completed => rounds k ++ [.start, .finish, .file, .report, .setPromise, .complete]

/-- The status counts how many bursts the job has had, as far as an `int` can
    and as long as it may need more. -/
def Status.counts (k : Nat) : Status → Prop
  | .queued b | .held (.executing b) | .held (.requeueing b) => b = int32 k
  | _ => True

theorem rounds_succ (k : Nat) : rounds (k + 1) = rounds k ++ [.start, .preempt, .requeue] := by
  rw [rounds, rounds, List.replicate_succ', List.flatten_append, List.flatten_singleton,
    List.cons_append]

/-- The machine has no choice but in the number of preemptions. -/
theorem tale_of_run {es : List Event} {st : Status} (h : Lts.run next .unknown es = some st) :
    ∃ k : Nat, es = tale k st ∧ st.counts k := by
  induction es using List.reverseRecOn generalizing st with
  | nil =>
      simp only [Lts.run, Option.some.injEq] at h
      exact ⟨0, h ▸ rfl, h ▸ trivial⟩
  | append_singleton es e ih =>
      rcases Lts.run_append.mp h with ⟨m, hm, hlast⟩
      rcases Lts.run_cons.mp hlast with ⟨m', hstep, hend⟩
      simp only [Lts.run, Option.some.injEq] at hend
      subst hend
      rcases ih hm with ⟨k, rfl, hk⟩
      unfold next at hstep
      split at hstep
      all_goals simp only [Option.some.injEq, reduceCtorEq] at hstep
      all_goals subst hstep
      · exact ⟨0, rfl, rfl⟩
      · exact ⟨k, rfl, hk⟩
      · exact ⟨k, by simp [tale], hk⟩
      · refine ⟨k + 1, by simp [tale, rounds_succ], ?_⟩
        simp only [Status.counts] at hk ⊢
        rw [hk, Int.add_comm, int32_add, Int.add_comm, Int.natCast_succ]
      all_goals exact ⟨k, by simp [tale], trivial⟩

/-! ## Where a job is -/

/-- The job a worker has, and where it is with it. -/
def phase : Worker → Option (Nat × Phase)
  | .executing job => some (job.id, .executing job.elapsedBursts)
  | .requeueing job => some (job.id, .requeueing job.elapsedBursts)
  | .finished job _ => some (job.id, .finished)
  | .submitting job _ => some (job.id, .submitting)
  | .submitted job _ => some (job.id, .submitted)
  | .settled job => some (job.id, .settled)
  | _ => none

def HasStatus (s : State n) (i : Nat) : Status → Prop
  | .unknown => i ∉ s.accepted.map Job.id
  | .queued k => ∃ job ∈ s.jobs, job.id = i ∧ job.elapsedBursts = k
  | .held p => ∃ w, phase (s.workers w) = some (i, p)
  | .completed => i ∈ s.completed

theorem job?_of_phase {v : Worker} {p : Phase} (h : phase v = some (i, p)) :
    ∃ job, v.job? = some job ∧ job.id = i := by
  cases v <;> simp only [phase, Option.some.injEq, Prod.mk.injEq, reduceCtorEq] at h
  all_goals exact ⟨_, rfl, h.1⟩

/-- The pool has a job in the deque, in somebody's hands or among the completed. -/
def Status.place : Status → Nat
  | .unknown => 0
  | .queued _ => 1
  | .held _ => 2
  | .completed => 3

/-- It has it there once, and nowhere else. -/
theorem status_counts (hi : Inv s) {st : Status} (h : HasStatus s i st) :
    ((s.jobs.map Job.id).count i = 1 ↔ st.place = 1) ∧
      (tally (holding i) s.workers = 1 ↔ st.place = 2) ∧
      (s.completed.count i = 1 ↔ st.place = 3) := by
  have hplace := hi.place i
  have hone := List.nodup_iff_count_le_one.mp hi.ids i
  cases st with
  | unknown =>
      have hzero := List.count_eq_zero.mpr h
      simp only [Status.place, Nat.reduceEqDiff, iff_false]
      omega
  | queued k =>
      rcases h with ⟨job, hjob, hid, _⟩
      have hmem : i ∈ s.jobs.map Job.id := List.mem_map.mpr ⟨job, hjob, hid⟩
      have hpos := List.count_pos_iff.mpr hmem
      simp only [Status.place, Nat.reduceEqDiff, iff_true, iff_false]
      omega
  | held p =>
      rcases h with ⟨w, hw⟩
      rcases job?_of_phase hw with ⟨job, hjob, hid⟩
      have hpos : holding i (s.workers w) = 1 := by
        simp only [holding, stage, hjob, hid, if_true]
      have hle := le_tally (holding i) s.workers w
      simp only [Status.place, Nat.reduceEqDiff, iff_true, iff_false]
      omega
  | completed =>
      have hmem : i ∈ s.completed := h
      have hpos := List.count_pos_iff.mpr hmem
      simp only [Status.place, Nat.reduceEqDiff, iff_true, iff_false]
      omega

theorem status_unique (hi : Inv s) {st st' : Status} (h : HasStatus s i st)
    (h' : HasStatus s i st') : st = st' := by
  have hplace : st.place = st'.place := by
    rcases status_counts hi h with ⟨hq, hh, hc⟩
    rcases status_counts hi h' with ⟨hq', hh', hc'⟩
    have hlt : ∀ st : Status, st.place ≤ 3 := fun st => by
      cases st <;> simp only [Status.place, Nat.reduceLeDiff]
    have hst := hlt st
    have hst' := hlt st'
    omega
  cases st <;> cases st' <;> first | rfl | simp only [Status.place, Nat.reduceEqDiff] at hplace
  -- two jobs in the deque, or two workers with a job, of the same id
  · rcases h with ⟨job, hjob, hid, rfl⟩
    rcases h' with ⟨job', hjob', hid', rfl⟩
    rw [List.inj_on_of_nodup_map (inv_queue_nodup hi) hjob hjob' (hid.trans hid'.symm)]
  · rcases h with ⟨w, hw⟩
    rcases h' with ⟨x, hx⟩
    rcases job?_of_phase hw with ⟨job, hjob, hid⟩
    rcases job?_of_phase hx with ⟨job', hjob', hid'⟩
    have hxw : x = w := by
      by_contra hne
      exact (inv_alone hi hjob).2.2 x hne job' hjob' (hid'.trans hid.symm)
    rw [hxw, hw] at hx
    rw [(Prod.mk.inj (Option.some.inj hx)).2]

/-! ## What a step does to a job -/

/-- The job a step is about, and what it does to it. -/
def event (sched : Scheduler) (s : State n) : Action n → Option (Nat × Event)
  | .enqueue sub _ => some (sub.id, .accept)
  | .dequeue w =>
      if s.workers w = .dequeuing then
        (sched.getNextJob s.jobs).map fun p => (p.1.id, .start)
      else none
  | .execute w res _ _ => match s.workers w with
      | .executing job => some (job.id, if res.preempted then .preempt else .finish)
      | _ => none
  | .requeue w _ => (s.workers w).job?.map fun job => (job.id, .requeue)
  | .callSubmitResult w => (s.workers w).job?.map fun job => (job.id, .file)
  | .returnFromSubmitResult w => (s.workers w).job?.map fun job => (job.id, .report)
  | .setPromise w => (s.workers w).job?.map fun job => (job.id, .setPromise)
  | .endIteration w => (s.workers w).job?.map fun job => (job.id, .complete)
  | _ => none

/-- What a step does to one job. -/
def eventOf (sched : Scheduler) (i : Nat) (s : State n) (a : Action n) : Option Event :=
  (event sched s a).bind fun e => if e.1 = i then some e.2 else none

/-- A step that leaves job `i` where it is. -/
theorem HasStatus.keep {st : Status} (h : HasStatus s i st)
    (hjobs : ∀ job ∈ s.jobs, job.id = i → job ∈ t.jobs)
    (hworkers : ∀ x p, phase (s.workers x) = some (i, p) → phase (t.workers x) = some (i, p))
    (haccepted : i ∈ t.accepted.map Job.id → i ∈ s.accepted.map Job.id)
    (hcompleted : i ∈ s.completed → i ∈ t.completed) : HasStatus t i st := by
  cases st with
  | unknown => exact fun hmem => h (haccepted hmem)
  | queued k =>
      rcases h with ⟨job, hjob, hid, hk⟩
      exact ⟨job, hjobs job hjob hid, hid, hk⟩
  | held p =>
      rcases h with ⟨w, hw⟩
      exact ⟨w, hworkers w p hw⟩
  | completed => exact hcompleted h

/-- A worker moves on that does not have job `i`. -/
theorem HasStatus.setWorker {st : Status} (h : HasStatus s i st) {w : Fin n} {v : Worker}
    (hw : ∀ p, phase (s.workers w) ≠ some (i, p)) (hworkers : t.workers = (setWorker s w v).workers)
    (hjobs : ∀ job ∈ s.jobs, job.id = i → job ∈ t.jobs) (haccepted : t.accepted = s.accepted)
    (hcompleted : i ∈ s.completed → i ∈ t.completed) : HasStatus t i st := by
  refine h.keep hjobs (fun x p hx => ?_) (fun hmem => haccepted ▸ hmem) hcompleted
  rw [hworkers, workers_setWorker]
  split
  · rename_i hxw
    exact absurd (hxw ▸ hx) (hw p)
  · exact hx

theorem phase_notifyOne {ws ws' : Fin n → Worker} {wake : Option (Fin n)}
    (h : notifyOne ws wake = some ws') {x : Fin n} {p : Phase} :
    phase (ws x) = some (i, p) → phase (ws' x) = some (i, p) := by
  intro hx
  have hsame : ws' x = ws x := by
    refine (notifyOne_eq h (v := ws x) ?_ ?_ x).mpr rfl
    · intro hw
      simp only [hw, phase, reduceCtorEq] at hx
    · intro hw
      simp only [hw, phase, reduceCtorEq] at hx
  rw [hsame]
  exact hx

theorem ne_of_eventOf {j : Nat} {e : Event} (h : eventOf sched i s a = none)
    (he : event sched s a = some (j, e)) : j ≠ i := by
  rintro rfl
  simp only [eventOf, he, Option.bind_some, if_true, reduceCtorEq] at h

theorem event_of_eventOf {e : Event} (h : eventOf sched i s a = some e) :
    event sched s a = some (i, e) := by
  rw [eventOf, Option.bind_eq_some_iff] at h
  rcases h with ⟨⟨j, e'⟩, he, hj⟩
  rw [Option.ite_none_right_eq_some, Option.some.injEq] at hj
  rw [he, ← hj.1, ← hj.2]

/-- What is said of the job in a worker's hands. -/
theorem held_eq {w : Fin n} {job : Job} {e e' : Event} (hjob : (s.workers w).job? = some job)
    (h : ((s.workers w).job?.map fun job => (job.id, e')) = some (i, e)) :
    job.id = i ∧ e' = e := by
  rw [hjob, Option.map_some, Option.some.injEq, Prod.mk.injEq] at h
  exact h

/-- What happens to a job is what the machine allows. -/
theorem follows_moves {e : Event} (hi : Inv s) (h : Moves sched s a t)
    (he : event sched s a = some (i, e)) :
    ∃ st st', HasStatus s i st ∧ next st e = some st' ∧ HasStatus t i st' := by
  have hself : ∀ {w : Fin n} {v : Worker}, (setWorker s w v).workers w = v :=
    setWorker_workers_self s _ _
  cases h with
  | enqueues sub wake ws hnew hwake =>
      simp only [event, Option.some.injEq, Prod.mk.injEq] at he
      rcases he with ⟨rfl, rfl⟩
      refine ⟨.unknown, .queued 0, fun hmem => ?_, rfl, sub.job,
        List.mem_append_right _ (List.mem_singleton.mpr rfl), rfl, rfl⟩
      rcases List.mem_map.mp hmem with ⟨b, hb, hid⟩
      exact ((isNew_iff sub s.accepted).mp hnew b hb).1 hid
  | takes w job rest hw hg =>
      simp only [event, hw, if_true, hg, Option.map_some, Option.some.injEq, Prod.mk.injEq] at he
      rcases he with ⟨rfl, rfl⟩
      have hmem : job ∈ s.jobs :=
        (Scheduler.getNextJob_perm hg).mem_iff.mpr List.mem_cons_self
      exact ⟨.queued job.elapsedBursts, .held (.executing job.elapsedBursts),
        ⟨job, hmem, rfl, rfl⟩, rfl, w, by rw [setWorker_workers_self]; rfl⟩
  | preempts w job res pid uniqueId hw hp =>
      simp only [event, hw, hp, if_true, Option.some.injEq, Prod.mk.injEq] at he
      rcases he with ⟨rfl, rfl⟩
      exact ⟨.held (.executing job.elapsedBursts), .held (.requeueing job.elapsedBursts),
        ⟨w, by rw [hw]; rfl⟩, rfl, w, by rw [hself]; rfl⟩
  | finishes w job res pid uniqueId hw hp =>
      simp only [event, hw, hp, Bool.false_eq_true, if_false, Option.some.injEq,
        Prod.mk.injEq] at he
      rcases he with ⟨rfl, rfl⟩
      exact ⟨.held (.executing job.elapsedBursts), .held .finished, ⟨w, by rw [hw]; rfl⟩, rfl, w,
        by rw [hself]; rfl⟩
  | requeues w job wake ws hw hwake =>
      rcases held_eq (congrArg Worker.job? hw) he with ⟨rfl, rfl⟩
      exact ⟨.held (.requeueing job.elapsedBursts), .queued (demote job).elapsedBursts,
        ⟨w, by rw [hw]; rfl⟩, rfl, _, List.mem_append_right _ (List.mem_singleton.mpr rfl), rfl,
        rfl⟩
  | files w job res hw =>
      rcases held_eq (congrArg Worker.job? hw) he with ⟨rfl, rfl⟩
      exact ⟨.held .finished, .held .submitting, ⟨w, by rw [hw]; rfl⟩, rfl, w,
        (congrArg phase hself).trans rfl⟩
  | reports w job res hw =>
      rcases held_eq (congrArg Worker.job? hw) he with ⟨rfl, rfl⟩
      exact ⟨.held .submitting, .held .submitted, ⟨w, by rw [hw]; rfl⟩, rfl, w,
        (congrArg phase hself).trans rfl⟩
  | passes w job res hw hp | pays w job res p hw hp hset =>
      rcases held_eq (congrArg Worker.job? hw) he with ⟨rfl, rfl⟩
      exact ⟨.held .submitted, .held .settled, ⟨w, by rw [hw]; rfl⟩, rfl, w,
        (congrArg phase hself).trans rfl⟩
  -- `set_value` does not throw
  | breaks w job res p hw hp hset => exact absurd hset (inv_unset hi hw hp)
  | ends w job hw =>
      rcases held_eq (congrArg Worker.job? hw) he with ⟨rfl, rfl⟩
      exact ⟨.held .settled, .completed, ⟨w, by rw [hw]; rfl⟩, rfl, List.mem_cons_self⟩
  | blocks w hw hj | departs w hw hj =>
      have hnone : sched.getNextJob [] = none := by cases sched <;> rfl
      simp only [event, hw, if_true, hj, hnone, Option.map_none, reduceCtorEq] at he
  | _ => simp only [event, reduceCtorEq] at he

/-- The job that a worker has is not `i`, if the step is not about `i`. -/
theorem phase_ne {w : Fin n} {job : Job} {e : Event} (h : eventOf sched i s a = none)
    (hjob : (s.workers w).job? = some job) (he : event sched s a = some (job.id, e)) (p : Phase) :
    phase (s.workers w) ≠ some (i, p) := by
  intro hp
  rcases job?_of_phase hp with ⟨job', hjob', hid⟩
  rw [hjob, Option.some.injEq] at hjob'
  exact ne_of_eventOf h he (hjob' ▸ hid)

/-- A step that is not about a job leaves it where it is. -/
theorem silent_moves {st : Status} (hi : Inv s) (h : Moves sched s a t) (hst : HasStatus s i st)
    (he : eventOf sched i s a = none) : HasStatus t i st := by
  -- a worker without a job moves on
  have hidle : ∀ {w : Fin n}, (s.workers w).job? = none →
      ∀ p, phase (s.workers w) ≠ some (i, p) := by
    intro w hw p hp
    rcases job?_of_phase hp with ⟨job, hjob, _⟩
    rw [hw] at hjob
    simp only [reduceCtorEq] at hjob
  cases h with
  | enqueues sub wake ws hnew hwake =>
      have hne : sub.id ≠ i := ne_of_eventOf he rfl
      refine hst.keep (fun job hjob _ => List.mem_append_left _ hjob)
        (fun x p hx => phase_notifyOne hwake hx) (fun hmem => ?_) id
      simp only [List.map_append, List.map_singleton, List.mem_append, List.mem_singleton] at hmem
      exact hmem.resolve_right fun hid => hne hid.symm
  | takes w job rest hw hg =>
      have hne : job.id ≠ i := ne_of_eventOf he (e := .start) (by
        simp only [event, hw, if_true, hg, Option.map_some])
      refine hst.setWorker (w := w) (v := .executing job)
        (fun p hp => by simp only [hw, phase, reduceCtorEq] at hp) rfl (fun j hj hid => ?_) rfl id
      rcases List.mem_cons.mp ((Scheduler.getNextJob_perm hg).mem_iff.mp hj) with rfl | hj
      · exact absurd hid hne
      · exact hj
  | enters w hw | leaves w hw | blocks w hw | departs w hw | wakes w hw =>
      exact hst.setWorker (hidle (congrArg Worker.job? hw)) rfl (fun _ hj _ => hj) rfl id
  | preempts w job res pid uniqueId hw hp =>
      refine hst.setWorker (phase_ne (e := .preempt) he (congrArg Worker.job? hw) ?_) rfl
        (fun _ hj _ => hj) rfl id
      simp only [event, hw, hp, if_true]
  | finishes w job res pid uniqueId hw hp =>
      refine hst.setWorker (phase_ne (e := .finish) he (congrArg Worker.job? hw) ?_) rfl
        (fun _ hj _ => hj) rfl id
      simp only [event, hw, hp, Bool.false_eq_true, if_false]
  | requeues w job wake ws hw hwake =>
      have hne := phase_ne (e := .requeue) he (congrArg Worker.job? hw) (by
        simp only [event, hw, Worker.job?, Option.map_some])
      have hback : HasStatus (setWorker s w .atLoopHead) i st :=
        hst.setWorker hne rfl (fun _ hj _ => hj) rfl id
      exact hback.keep (fun j hj _ => List.mem_append_left _ hj)
        (fun x p hx => phase_notifyOne hwake hx) id id
  | files w job res hw =>
      refine hst.setWorker (w := w) (phase_ne (e := .file) he (congrArg Worker.job? hw) ?_) rfl
        (fun _ hj _ => hj) rfl id
      simp only [event, hw, Worker.job?, Option.map_some]
  | reports w job res hw =>
      refine hst.setWorker (w := w) (phase_ne (e := .report) he (congrArg Worker.job? hw) ?_) rfl
        (fun _ hj _ => hj) rfl id
      simp only [event, hw, Worker.job?, Option.map_some]
  | passes w job res hw hp | pays w job res p hw hp hset =>
      refine hst.setWorker (w := w) (phase_ne (e := .setPromise) he (congrArg Worker.job? hw) ?_)
        rfl (fun _ hj _ => hj) rfl id
      simp only [event, hw, Worker.job?, Option.map_some]
  | breaks w job res p hw hp hset => exact absurd hset (inv_unset hi hw hp)
  | ends w job hw =>
      refine hst.setWorker (w := w) (phase_ne (e := .complete) he (congrArg Worker.job? hw) ?_) rfl
        (fun _ hj _ => hj) rfl (List.mem_cons_of_mem _)
      simp only [event, hw, Worker.job?, Option.map_some]
  | clears hs | joins hs hw => exact hst.keep (fun _ hj _ => hj) (fun _ _ hx => hx) id id
  | stops hs =>
      refine hst.keep (fun _ hj _ => hj) (fun x p hx => ?_) id id
      have hsame : notifyAll s.workers x = s.workers x := by
        refine if_neg fun hw => ?_
        simp only [hw, phase, reduceCtorEq] at hx
      exact (congrArg phase hsame).trans hx

/-- For every job, the pool simulates the machine. -/
theorem simulates_life (sched : Scheduler) (n i : Nat) :
    Lts.Simulates (step sched (n := n)) next (eventOf sched i)
      (fun s st => Inv s ∧ HasStatus s i st) where
  silent s a t st hs hstep he :=
    ⟨inv_step hs.1 hstep, silent_moves hs.1 (moves_of_step hstep) hs.2 he⟩
  follows s a t st e hs hstep he := by
    rcases follows_moves hs.1 (moves_of_step hstep) (event_of_eventOf he) with
      ⟨u, v, hu, hv, ht⟩
    exact ⟨v, status_unique hs.1 hs.2 hu ▸ hv, inv_step hs.1 hstep, ht⟩

/-- For any number of clients and workers, under any scheduler and in any
    interleaving: what a run does to a job leads the machine to where the job
    is, and so it is the tale of that place. A job that is completed was
    accepted, preempted and put back some number of times, and then finished,
    reported and completed, each once and in this order. -/
theorem life_of_job (sched : Scheduler) (n : Nat) (actions : List (Action n)) (s : State n)
    (h : Lts.run (step sched) (init n) actions = some s) (i : Nat) :
    ∃ (st : Status) (k : Nat), HasStatus s i st ∧ (∀ st', HasStatus s i st' → st' = st) ∧
      Lts.run next .unknown (Lts.trace (step sched) (eventOf sched i) (init n) actions) = some st ∧
      Lts.trace (step sched) (eventOf sched i) (init n) actions = tale k st ∧ st.counts k := by
  have hinit : Inv (init n) ∧ HasStatus (init n) i .unknown := ⟨inv_init, List.not_mem_nil⟩
  rcases Lts.run_of_simulates (simulates_life sched n i) hinit h with ⟨st, hrun, hinv, hst⟩
  rcases tale_of_run hrun with ⟨k, htale, hk⟩
  exact ⟨st, k, hst, fun st' h' => status_unique hinv h' hst, hrun, htale, hk⟩

/-- Two workers share one job, and a second job comes in between. -/
theorem life_of_job_shared : ∃ (s : State 2) (st : Status) (k : Nat), s.completed = [1] ∧
    HasStatus s 1 st ∧ [Event.accept, .start, .preempt, .requeue, .start, .finish, .file, .report,
      .setPromise, .complete] = tale k st := by
  rcases life_of_job .mlfq 2
    [.testRunning 0, .dequeue 0, .enqueue { id := 1, cmd := {}, resultPromise := some 7 } (some 0),
      .dequeue 0, .execute 0 { preempted := true } 100 1, .testRunning 1,
      .enqueue { id := 2, cmd := {}, resultPromise := none, priority := 5 } none, .requeue 0 none,
      .dequeue 1, .execute 1 { exitCode := 0, success := true } 100 1, .callSubmitResult 1,
      .returnFromSubmitResult 1, .setPromise 1, .endIteration 1] _ rfl 1 with
    ⟨st, k, hst, _, _, htale, _⟩
  exact ⟨_, st, k, rfl, hst, htale⟩

end Life

end Pool

end Isolyx
