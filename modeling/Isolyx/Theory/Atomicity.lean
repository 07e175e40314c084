import Isolyx.Core.Locks
import Isolyx.Library.Simulation

/-!
# The Critical Sections Are Atomic

Why `Core.Pool` and `Core.Shutdown` may take a critical section of the queue as
one step. The pool is run lock by lock here, every thread moving whenever it
can, and each run is one of `Core.Shutdown`: a section counts as one step at its
last access, which is the notification in `enqueue`, the return or the block in
`dequeue` and the end of the section in `stop` (`simulates_shutdown`).

In between the deque may be in a state that `Core.Pool` does not have, and a
thread may have read what is about to change. That nobody sees the one and that
the other never happens is what the mutex is for (`Sections.Covers`).

The blocked workers are not behind the mutex. `notify_all` of `stop` and a
wake-up without a cause reach them while somebody is in a section, and then the
notification of that section finds somebody else. So `enqueue` takes effect
with its notification and not when it gives the mutex back.

## Main definitions

* `Fresh`: The clients' jobs are new.
* `Atomic`: The state in which the sections run at once.
* `Agrees`: Where the two may differ.

## Theorems

* `afterDequeue_eval`: `dequeue`, run at once, is the step of the pool.
* `step_setData`: A step that needs no mutex does not depend on the data behind it.
* `fresh_moves`: The jobs the clients make stay new.
* `simulates_shutdown`: The last access of a section is the step of the pool.
* `sections_atomic`: A run lock by lock is a run of the pool.
-/

namespace Isolyx

namespace Locks

open Pool (Worker Submission setWorker notifyOne)
open Sections (Body Code Mutex Covers)
open Collector (Observer)

variable {n : Nat} {sched : Scheduler} {observers : List Observer} {s t : State n}

/-! ## The sections, run at once -/

theorem eval_enqueueBody (job : Job) (q : Queue) : (enqueueBody sched job).eval q =
    ({ q with jobs := sched.addJob q.jobs job }, .added) := rfl

theorem eval_chooseBody {q : Queue} {job : Job} {rest : List Job}
    (h : sched.getNextJob q.jobs = some (job, rest)) :
    (chooseBody sched).eval q = ({ q with jobs := rest }, .takes job) := by
  simp only [chooseBody, Body.eval, id, h]

/-- `dequeue`, run at once, is the step of the pool. -/
theorem afterDequeue_eval {q d : Queue} {out : Outcome} (p : Pool.State n) (w : Fin n)
    (h : (dequeueBody sched).eval q = (d, out)) :
    afterDequeue (setData p d) w out = some (Pool.dequeue sched (setData p q) w) := by
  rcases q with ⟨jobs, stopping⟩
  cases jobs with
  | nil =>
      cases stopping with
      | false =>
          simp only [dequeueBody, Body.eval, id, List.isEmpty_nil, if_true, Bool.false_eq_true,
            if_false, Prod.mk.injEq] at h
          rcases h with ⟨rfl, rfl⟩
          rfl
      | true =>
          simp only [dequeueBody, leaveBody, Body.eval, id, List.isEmpty_nil, if_true,
            Prod.mk.injEq] at h
          rcases h with ⟨rfl, rfl⟩
          rfl
  | cons first more =>
      rcases Option.isSome_iff_exists.mp (Scheduler.getNextJob_isSome sched
        (List.cons_ne_nil first more)) with ⟨⟨job, rest⟩, hg⟩
      -- whether the queue is stopped or not, a job is chosen
      have heval : (dequeueBody sched).eval ⟨first :: more, stopping⟩ =
          (⟨rest, stopping⟩, .takes job) := by
        cases stopping <;>
          simp only [dequeueBody, leaveBody, Body.eval, id, List.isEmpty_cons, Bool.false_eq_true,
            if_false, if_true] <;> exact eval_chooseBody hg
      rw [heval, Prod.mk.injEq] at h
      rcases h with ⟨rfl, rfl⟩
      simp only [afterDequeue, Pool.dequeue, setData, List.isEmpty_cons, Bool.false_and,
        Bool.and_false, Bool.false_eq_true, if_false, hg]

/-! ## The steps that need no mutex -/

/-- A call of the queue. -/
def callsQueue : Pool.Action n → Bool
  | .enqueue _ _ | .dequeue _ | .requeue _ _ | .stopQueue => true
  | _ => false

theorem callsQueue_of_needsNoMutex {m : Mutex (Thread n) (Code Queue Outcome)}
    {a : Pool.Action n} (h : needsNoMutex m a = true) : callsQueue a = false := by
  cases a with
  | enqueue | dequeue | requeue | stopQueue => exact absurd h Bool.false_ne_true
  | _ => rfl

theorem shutdown_step {u : Pool.State n} {a : Pool.Action n} (h : a ≠ .stopQueue) :
    Shutdown.step sched u (.pool a) = Pool.step sched u a := by
  cases a with
  | stopQueue => exact absurd rfl h
  | _ => rfl

/-- Such a step does not depend on the data behind the mutex. -/
theorem step_setData {p p' : Pool.State n} {a : Pool.Action n} (ha : callsQueue a = false)
    (h : Pool.Moves sched p a p') (q : Queue) :
    Shutdown.step sched (setData p q) (.pool a) = some (setData p' q) := by
  cases h with
  | enqueues | blocks | departs | takes | requeues | stops => exact absurd ha Bool.true_eq_false.mp
  | enters w hw hr =>
      simp only [Shutdown.step, Pool.step, workers_setData, running_setData, hw, hr, if_true]
      rfl
  | leaves w hw hr =>
      simp only [Shutdown.step, Pool.step, workers_setData, running_setData, hw, hr,
        Bool.false_eq_true, if_false]
      rfl
  | wakes w hw =>
      simp only [Shutdown.step, Pool.step, workers_setData, hw]
      rfl
  | preempts w job res pid uniqueId hw hp =>
      simp only [Shutdown.step, Pool.step, workers_setData, hw, hp, if_true]
      rfl
  | finishes w job res pid uniqueId hw hp =>
      simp only [Shutdown.step, Pool.step, workers_setData, hw, hp, Bool.false_eq_true, if_false]
      rfl
  | files w job res hw | reports w job res hw | ends w job hw =>
      simp only [Shutdown.step, Pool.step, workers_setData, hw]
      rfl
  | passes w job res hw hp =>
      simp only [Shutdown.step, Pool.step, workers_setData, hw, hp]
      rfl
  | breaks w job res p hw hp hset =>
      simp only [Shutdown.step, Pool.step, workers_setData, satisfied_setData, hw, hp, hset,
        if_true]
      rfl
  | pays w job res p hw hp hset =>
      simp only [Shutdown.step, Pool.step, workers_setData, satisfied_setData, hw, hp, hset,
        if_false]
      rfl
  | clears hs =>
      simp only [Shutdown.step, Pool.step, stopper_setData, hs, if_true]
      rfl
  | joins hs hw =>
      simp only [Shutdown.step, Pool.step, stopper_setData, workers_setData, hs, true_and,
        if_pos hw]
      rfl

theorem whole_congr (hw : t.pool.workers = s.pool.workers) (hp : t.pool.stopper = s.pool.stopper)
    (hc : t.clients = s.clients) (hs : t.stopped = s.stopped) (i : Thread n) :
    whole sched t i = whole sched s i := by
  cases i <;> simp only [whole, hw, hp, hc, hs]

/-- What a thread in a section is to go through does not change meanwhile: the
    steps without a mutex are those of other threads. -/
theorem whole_own {p : Pool.State n} {a : Pool.Action n} (ha : callsQueue a = false)
    (h : Pool.Moves sched s.pool a p) {i : Thread n} {body : Body Queue Outcome}
    (hi : whole sched s i = some body) : whole sched { s with pool := p } i = some body := by
  cases i with
  | client c => exact hi
  | stopper =>
      simp only [whole, Option.ite_none_right_eq_some] at hi ⊢
      cases h with
      | clears hs | joins hs => exact Pool.Stopper.noConfusion (hi.1.1.symm.trans hs)
      | stops hs => exact absurd ha Bool.true_eq_false.mp
      | _ => exact hi
  | worker w =>
      -- the worker that moves is in no section
      have hne : ∀ x, whole sched s (.worker x) = none → w ≠ x := by
        rintro x hx rfl
        rw [hi] at hx
        simp only [reduceCtorEq] at hx
      have hsame : p.workers w = s.pool.workers w := by
        cases h with
        | enqueues | blocks | departs | takes | requeues | stops =>
            exact absurd ha Bool.true_eq_false.mp
        | clears | joins => rfl
        | enters x hx | leaves x hx | wakes x hx | preempts x job res pid uniqueId hx
          | finishes x job res pid uniqueId hx | files x job res hx | reports x job res hx
          | passes x job res hx | breaks x job res p hx | pays x job res p hx | ends x job hx =>
            exact Pool.setWorker_workers_other s.pool x w _ (hne x (by simp only [whole, hx]))
      simp only [whole, hsame]
      exact hi

theorem data_own {p p' : Pool.State n} {a : Pool.Action n} (ha : callsQueue a = false)
    (h : Pool.Moves sched p a p') : data p' = data p := by
  cases h with
  | enqueues | blocks | departs | takes | requeues | stops => exact absurd ha Bool.true_eq_false.mp
  | _ => rfl

/-! ## New jobs -/

theorem isNew_append (sub : Submission) (as bs : List Job) :
    sub.isNew (as ++ bs) = (sub.isNew as && sub.isNew bs) := List.all_append

theorem isNew_subset {sub : Submission} {as bs : List Job} (h : sub.isNew bs = true)
    (hsub : ∀ a ∈ as, a ∈ bs) : sub.isNew as = true := by
  rw [Pool.isNew_iff] at h ⊢
  exact fun a ha => h a (hsub a ha)

theorem isNew_symm {sub other : Submission} (h : sub.isNew [other.job] = true) :
    other.isNew [sub.job] = true := by
  rw [Pool.isNew_iff] at h ⊢
  intro a ha
  rw [List.mem_singleton.mp ha]
  rcases h other.job (List.mem_singleton.mpr rfl) with ⟨hid, hpromise⟩
  refine ⟨hid.symm, ?_⟩
  rcases hpromise with hnone | hne
  · by_cases hother : other.resultPromise = none
    · exact .inl hother
    · exact .inr fun heq => hother (heq.symm.trans hnone)
  · exact .inr fun heq => hne heq.symm

/-- The clients' jobs are new, to the accepted ones and to each other. -/
structure Fresh (s : State n) : Prop where
  accepted : ∀ c sub, s.clients c = some sub → sub.isNew s.pool.accepted = true
  apart : ∀ c d sub other, c ≠ d → s.clients c = some sub → s.clients d = some other →
    sub.isNew [other.job] = true
  known : ∀ a ∈ s.pool.accepted, a ∈ s.offered
  offered : ∀ c sub, s.clients c = some sub → sub.job ∈ s.offered

theorem fresh_init (n : Nat) : Fresh (init n) where
  accepted _ _ h := absurd h.symm (Option.some_ne_none _)
  apart _ _ _ _ _ h := absurd h.symm (Option.some_ne_none _)
  known _ h := absurd h List.not_mem_nil
  offered _ _ h := absurd h.symm (Option.some_ne_none _)

theorem Fresh.keep (hs : Fresh s) (hc : t.clients = s.clients) (ho : t.offered = s.offered)
    (ha : t.pool.accepted = s.pool.accepted) : Fresh t where
  accepted := by rw [hc, ha]; exact hs.accepted
  apart := by rw [hc]; exact hs.apart
  known := by rw [ha, ho]; exact hs.known
  offered := by rw [hc, ho]; exact hs.offered

/-- The jobs the clients make stay new. -/
theorem fresh_moves {a : Action n} (hs : Fresh s) (h : Moves sched observers s a t) :
    Fresh t := by
  cases h with
  | calls c sub hc hout hnew =>
      have hpast : ∀ d other, s.clients d = some other → sub.isNew [other.job] = true := by
        intro d other hd
        refine isNew_subset hnew fun a ha => ?_
        rw [List.mem_singleton.mp ha]
        exact hs.offered d other hd
      have hwho : ∀ d other, Function.update s.clients c (some sub) d = some other →
          (d = c ∧ other = sub) ∨ s.clients d = some other := by
        intro d other hd
        by_cases hdc : d = c
        · rw [hdc, Function.update_self, Option.some.injEq] at hd
          exact .inl ⟨hdc, hd.symm⟩
        · rw [Function.update_of_ne hdc] at hd
          exact .inr hd
      refine ⟨fun d other hd => ?_, fun d e first second hne hd he => ?_,
        fun a ha => List.mem_append_left _ (hs.known a ha), fun d other hd => ?_⟩
      · rcases hwho d other hd with ⟨_, rfl⟩ | hold
        · exact isNew_subset hnew hs.known
        · exact hs.accepted d other hold
      · rcases hwho d first hd with ⟨hdc, rfl⟩ | hfirst <;>
          rcases hwho e second he with ⟨hec, rfl⟩ | hsecond
        · exact absurd (hdc.trans hec.symm) hne
        · exact hpast e second hsecond
        · exact isNew_symm (hpast d first hfirst)
        · exact hs.apart d e first second hne hfirst hsecond
      · rcases hwho d other hd with ⟨_, rfl⟩ | hold
        · exact List.mem_append_right _ (List.mem_singleton.mpr rfl)
        · exact List.mem_append_left _ (hs.offered d other hold)
  | enqueues c wake sub ws hi hc hwake =>
      have hother : ∀ d other, Function.update s.clients c none d = some other →
          d ≠ c ∧ s.clients d = some other := by
        intro d other hd
        by_cases hdc : d = c
        · rw [hdc, Function.update_self] at hd
          simp only [reduceCtorEq] at hd
        · rw [Function.update_of_ne hdc] at hd
          exact ⟨hdc, hd⟩
      refine ⟨fun d other hd => ?_, fun d e first second hne hd he => ?_, fun a ha => ?_,
        fun d other hd => hs.offered d other (hother d other hd).2⟩
      · rcases hother d other hd with ⟨hdc, hd⟩
        rw [isNew_append, hs.accepted d other hd, Bool.true_and]
        exact hs.apart d c other sub hdc hd hc
      · exact hs.apart d e first second hne (hother d first hd).2 (hother e second he).2
      · rcases List.mem_append.mp ha with hold | hnew
        · exact hs.known a hold
        · rw [List.mem_singleton.mp hnew]
          exact hs.offered c sub hc
  | leaves w out p hi hp =>
      refine hs.keep rfl rfl ?_
      cases out <;> simp only [afterDequeue, Option.some.injEq, reduceCtorEq] at hp <;>
        exact hp ▸ rfl
  | unlocksCollector w p hw hp =>
      exact hs.keep rfl rfl (Pool.accepted_of_moves hp fun _ _ => by
        simp only [ne_eq, reduceCtorEq, not_false_eq_true])
  | owns a p ha hp =>
      refine hs.keep rfl rfl (Pool.accepted_of_moves hp fun sub wake heq => ?_)
      rw [heq] at ha
      exact absurd ha Bool.false_ne_true
  | _ => exact hs.keep rfl rfl rfl

/-! ## The sections as steps of the pool -/

/-- `q` is what the data are to those outside: with them the sections that are
    over have run at once, and the one under way has not begun. -/
structure Atomic (sched : Scheduler) (s : State n) (q : Queue) : Prop where
  excl : s.queue.Exclusive
  covers : Covers s.queue (whole sched s) (data s.pool) q
  stopped : q.stopping = s.stopped
  fresh : Fresh s

theorem atomic_init (n : Nat) : Atomic sched (init n) ⟨[], false⟩ where
  excl := Sections.exclusive_free
  covers := Sections.covers_free
  stopped := rfl
  fresh := fresh_init n

/-- With nobody in the middle of a section, the data are what they are. -/
theorem atomic_of_quiet (he : s.queue.Exclusive)
    (hq : ∀ i rest, s.queue.inside i ≠ some (.running rest)) (hstop : s.pool.stopping = s.stopped)
    (hf : Fresh s) : Atomic sched s (data s.pool) :=
  ⟨he, Sections.covers_of_quiet hq, hstop, hf⟩

/-- What shows nothing leaves the data as they are to those outside. -/
theorem atomic_silent {q : Queue} {a : Action n} (hs : Atomic sched s q)
    (h : Moves sched observers s a t) (ha : shows s a = none) :
    Atomic sched t q ∧ setData t.pool q = setData s.pool q := by
  have hfresh := fresh_moves hs.fresh h
  cases h with
  | calls c sub hc hout hnew =>
      refine ⟨⟨hs.excl, hs.covers.congr fun i body rest hi hbody => ?_, hs.stopped, hfresh⟩, rfl⟩
      cases i with
      | client d =>
          have hdc : d ≠ c := by
            rintro rfl
            rw [hout] at hi
            simp only [reduceCtorEq] at hi
          simp only [whole, Function.update_of_ne hdc]
          exact hbody
      | worker w => exact hbody
      | stopper => exact hbody
  | locks i body m hbody hm =>
      have hcovers := Sections.covers_take hs.covers hs.excl hbody hm
      exact ⟨⟨Sections.exclusive_take hs.excl hm, hcovers.congr fun i _ _ _ h =>
        (whole_congr rfl rfl rfl rfl i).trans h, hs.stopped, hfresh⟩, rfl⟩
  | acts i write next hi =>
      have hcovers := Sections.covers_act hs.covers hs.excl hi
      exact ⟨⟨Sections.exclusive_goOn hs.excl hi, hcovers.congr fun i _ _ _ h =>
        (whole_congr rfl rfl rfl rfl i).trans h, hs.stopped, hfresh⟩, rfl⟩
  | unlocks i hi =>
      have hq := Sections.eq_of_leaving hs.covers hs.excl hi
      refine ⟨⟨Sections.exclusive_give hs.excl hi, ?_, hs.stopped, hfresh⟩, rfl⟩
      rw [← hq]
      exact Sections.covers_of_quiet (Sections.quiet_give hs.excl hi)
  | locksCollector | puts | throws =>
      exact ⟨⟨hs.excl, hs.covers.congr fun i _ _ _ h =>
        (whole_congr rfl rfl rfl rfl i).trans h, hs.stopped, hfresh⟩, rfl⟩
  | enqueues c wake sub ws hi hc hwake =>
      simp only [shows, hc, Option.map_some, reduceCtorEq] at ha
  | leaves | stops | requeues | notifies | unlocksCollector | owns =>
      simp only [shows, reduceCtorEq] at ha

theorem stopping_dequeue (p : Pool.State n) (w : Fin n) :
    (Pool.dequeue sched p w).stopping = p.stopping := by
  rw [Pool.dequeue]
  split
  · rfl
  · split
    · rfl
    · split <;> rfl

/-- The end of `dequeue`. -/
theorem atomic_leaves {q : Queue} (hs : Atomic sched s q) {w : Fin n} {out : Outcome}
    {p : Pool.State n} (hi : s.queue.inside (.worker w) = some (.running (.ret out)))
    (hp : afterDequeue s.pool w out = some p)
    (hf : Fresh { s with pool := p, queue := s.queue.give (.worker w) }) :
    Shutdown.step sched (setData s.pool q) (.pool (.dequeue w)) = some p ∧
      Atomic sched { s with pool := p, queue := s.queue.give (.worker w) } (data p) := by
  rcases Sections.eval_of_covers hs.covers hi with ⟨body, hbody, heval⟩
  simp only [whole] at hbody
  split at hbody
  · rename_i hw
    rw [Option.some.injEq] at hbody
    subst hbody
    have hnext := afterDequeue_eval s.pool w heval
    rw [show setData s.pool (data s.pool) = s.pool from rfl, hp, Option.some.injEq] at hnext
    refine ⟨?_, atomic_of_quiet (Sections.exclusive_give hs.excl hi)
      (Sections.quiet_give hs.excl hi) ?_ hf⟩
    · simp only [Shutdown.step, Pool.step, workers_setData, hw, hnext]
    · rw [hnext, stopping_dequeue]
      exact hs.stopped
  · -- a worker that requeues its job is not in `dequeue`
    rename_i job hw
    rw [Option.some.injEq] at hbody
    subst hbody
    rw [eval_enqueueBody, Prod.mk.injEq] at heval
    rw [← heval.2] at hp
    simp only [afterDequeue, reduceCtorEq] at hp
  · simp only [reduceCtorEq] at hbody

/-- The end of the section of `stop`. -/
theorem atomic_stops {q : Queue} (hs : Atomic sched s q) {out : Outcome}
    (hi : s.queue.inside .stopper = some (.running (.ret out)))
    (hf : Fresh { s with stopped := true, queue := s.queue.give .stopper }) :
    Shutdown.step sched (setData s.pool q) .setStopping = some s.pool ∧
      Atomic sched { s with stopped := true, queue := s.queue.give .stopper } (data s.pool) := by
  rcases Sections.eval_of_covers hs.covers hi with ⟨body, hbody, heval⟩
  simp only [whole, Option.ite_none_right_eq_some, Option.some.injEq] at hbody
  rcases hbody with ⟨⟨hflagged, hopen⟩, rfl⟩
  rw [stopBody, Body.eval, Body.eval, Prod.mk.injEq] at heval
  have hdata : s.pool = setData s.pool { q with stopping := true } := by
    rw [heval.1]
    rfl
  have hq : q.stopping = false := hs.stopped.trans hopen
  refine ⟨?_, atomic_of_quiet (Sections.exclusive_give hs.excl hi)
    (Sections.quiet_give hs.excl hi) ?_ hf⟩
  · rw [Shutdown.step, if_pos ⟨hflagged, hq⟩]
    exact congrArg some hdata.symm
  · rw [hdata]
    rfl

/-- The notification of a worker that requeues its job. -/
theorem atomic_requeues {q : Queue} (hs : Atomic sched s q) {w : Fin n} {wake : Option (Fin n)}
    {job : Job} {ws : Fin n → Worker}
    (hi : s.queue.inside (.worker w) = some (.running (.ret .added)))
    (hw : s.pool.workers w = .requeueing job)
    (hwake : notifyOne (setWorker s.pool w .atLoopHead).workers wake = some ws)
    (ht : t = { s with
      pool := { s.pool with workers := ws, requeued := job.id :: s.pool.requeued }
      queue := s.queue.goOn (.worker w) .leaving }) (hf : Fresh t) :
    Shutdown.step sched (setData s.pool q) (.pool (.requeue w wake)) = some t.pool ∧
      Atomic sched t (data t.pool) := by
  rcases Sections.eval_of_covers hs.covers hi with ⟨body, hbody, heval⟩
  simp only [whole, hw, Option.some.injEq] at hbody
  subst hbody
  rw [eval_enqueueBody, Prod.mk.injEq] at heval
  have hdata : s.pool = setData s.pool (data s.pool) := rfl
  rw [← heval.1] at hdata
  subst ht
  refine ⟨?_, atomic_of_quiet (Sections.exclusive_goOn hs.excl hi)
    (Sections.quiet_leaving hs.excl hi) ?_ hf⟩
  · simp only [Shutdown.step, Pool.step, workers_setData, hw, Pool.enqueue, setWorker_setData,
      hwake]
    rw [hdata]
    rfl
  · show s.pool.stopping = s.stopped
    rw [hdata]
    exact hs.stopped

/-- The notification of a client. -/
theorem atomic_enqueues {q : Queue} (hs : Atomic sched s q) {c : Nat} {wake : Option (Fin n)}
    {sub : Submission} {ws : Fin n → Worker}
    (hi : s.queue.inside (.client c) = some (.running (.ret .added)))
    (hc : s.clients c = some sub) (hwake : notifyOne s.pool.workers wake = some ws)
    (ht : t = { s with
      pool := { s.pool with workers := ws, accepted := s.pool.accepted ++ [sub.job] }
      clients := Function.update s.clients c none
      queue := s.queue.goOn (.client c) .leaving }) (hf : Fresh t) :
    Shutdown.step sched (setData s.pool q) (.pool (.enqueue sub wake)) = some t.pool ∧
      Atomic sched t (data t.pool) := by
  rcases Sections.eval_of_covers hs.covers hi with ⟨body, hbody, heval⟩
  simp only [whole, hc, Option.map_some, Option.some.injEq] at hbody
  subst hbody
  rw [eval_enqueueBody, Prod.mk.injEq] at heval
  have hdata : s.pool = setData s.pool (data s.pool) := rfl
  rw [← heval.1] at hdata
  subst ht
  refine ⟨?_, atomic_of_quiet (Sections.exclusive_goOn hs.excl hi)
    (Sections.quiet_leaving hs.excl hi) ?_ hf⟩
  · simp only [Shutdown.step, Pool.step, accepted_setData, hs.fresh.accepted c sub hc, if_true,
      Pool.enqueue, workers_setData, hwake]
    rw [hdata]
    rfl
  · show s.pool.stopping = s.stopped
    rw [hdata]
    exact hs.stopped

/-- A step that needs no mutex. -/
theorem atomic_own {q : Queue} (hs : Atomic sched s q) {a : Pool.Action n} {p : Pool.State n}
    (ha : callsQueue a = false) (hp : Pool.Moves sched s.pool a p)
    (ht : t = { s with pool := p, collector := t.collector }) (hf : Fresh t) :
    Shutdown.step sched (setData s.pool q) (.pool a) = some (setData t.pool q) ∧
      Atomic sched t q := by
  rw [ht] at hf ⊢
  refine ⟨step_setData ha hp q, hs.excl, ?_, hs.stopped, hf⟩
  rw [data_own ha hp]
  exact hs.covers.congr fun i _ _ _ hbody =>
    (whole_congr rfl rfl rfl rfl i).trans (whole_own ha hp hbody)

/-- The last access of a section is the step of the pool. -/
theorem atomic_follows {q : Queue} {a : Action n} {e : Shutdown.Action n}
    (hs : Atomic sched s q) (h : Moves sched observers s a t) (he : shows s a = some e) :
    ∃ r, Shutdown.step sched (setData s.pool q) e = some (setData t.pool r) ∧
      Atomic sched t r := by
  have hfresh := fresh_moves hs.fresh h
  cases h with
  | leaves w out p hi hp =>
      rw [shows, Option.some.injEq] at he
      subst he
      exact ⟨data p, atomic_leaves hs hi hp hfresh⟩
  | stops out hi =>
      rw [shows, Option.some.injEq] at he
      subst he
      exact ⟨data s.pool, atomic_stops hs hi hfresh⟩
  | requeues w wake job ws hi hw hwake =>
      rw [shows, Option.some.injEq] at he
      subst he
      exact ⟨data s.pool, atomic_requeues hs hi hw hwake rfl hfresh⟩
  | enqueues c wake sub ws hi hc hwake =>
      rw [shows, hc, Option.map_some, Option.some.injEq] at he
      subst he
      exact ⟨data s.pool, atomic_enqueues hs hi hc hwake rfl hfresh⟩
  | notifies hflagged hstopped =>
      rw [shows, Option.some.injEq] at he
      subst he
      refine ⟨q, ?_, hs.excl, hs.covers.congr fun i body rest hi hbody => ?_, hs.stopped, hfresh⟩
      · rw [Shutdown.step, if_pos ⟨hflagged, hs.stopped.trans hstopped⟩]
        rfl
      · cases i with
        | client c => exact hbody
        | stopper =>
            simp only [whole, hstopped, Bool.true_eq_false, and_false, if_false, reduceCtorEq]
              at hbody
        | worker w =>
            -- who is in a section is not blocked
            have hw : s.pool.workers w ≠ .waiting := by
              intro hw
              simp only [whole, hw, reduceCtorEq] at hbody
            simp only [whole, Pool.notifyAll, if_neg hw]
            exact hbody
  | unlocksCollector w p hw hp =>
      rw [shows, Option.some.injEq] at he
      subst he
      exact ⟨q, atomic_own hs rfl hp rfl hfresh⟩
  | owns a p ha hp =>
      rw [shows, Option.some.injEq] at he
      subst he
      exact ⟨q, atomic_own hs (callsQueue_of_needsNoMutex ha) hp rfl hfresh⟩
  | calls | locks | acts | unlocks | locksCollector | puts | throws =>
      simp only [shows, reduceCtorEq] at he

/-- Every step keeps the two together. -/
theorem atomic_step {q : Queue} {a : Action n} (hs : Atomic sched s q)
    (h : Moves sched observers s a t) : ∃ r, Atomic sched t r := by
  cases he : shows s a with
  | none => exact ⟨q, (atomic_silent hs h he).1⟩
  | some e =>
      rcases atomic_follows hs h he with ⟨r, _, ht⟩
      exact ⟨r, ht⟩

theorem simulates_shutdown : Lts.Simulates (step sched observers) (Shutdown.step sched) shows
    (fun s u => ∃ q, u = setData s.pool q ∧ Atomic (n := n) sched s q) where
  silent s a t u := by
    rintro ⟨q, rfl, hs⟩ h ha
    rcases atomic_silent hs (moves_of_step h) ha with ⟨ht, hpool⟩
    exact ⟨q, hpool.symm, ht⟩
  follows s a t u e := by
    rintro ⟨q, rfl, hs⟩ h he
    rcases atomic_follows hs (moves_of_step h) he with ⟨r, hr, ht⟩
    exact ⟨_, hr, r, rfl, ht⟩

/-- Where the pool lock by lock and the atomic one may differ. -/
structure Agrees (s : State n) (u : Pool.State n) : Prop where
  /-- In the data behind the queue's mutex. -/
  others : u = setData s.pool (data u)
  /-- And there only while somebody is in the middle of a section. -/
  quiet : (∀ i rest, s.queue.inside i ≠ some (.running rest)) → u = s.pool
  /-- That is one thread at most. -/
  exclusive : ∀ i j k l, s.queue.inside i = some k → s.queue.inside j = some l → i = j

/-- In every interleaving of the accesses, with any number of workers and
    clients: the last accesses of the sections, in their order, are a run of
    the pool whose sections are one step each. -/
theorem sections_atomic (sched : Scheduler) (observers : List Observer) (n : Nat)
    (actions : List (Action n)) (s : State n)
    (h : Lts.run (step sched observers) (init n) actions = some s) :
    ∃ u, Lts.run (Shutdown.step sched) (Pool.init n)
      (Lts.trace (step sched observers) shows (init n) actions) = some u ∧ Agrees s u := by
  rcases Lts.run_of_simulates simulates_shutdown ⟨⟨[], false⟩, rfl, atomic_init n⟩ h with
    ⟨_, hrun, q, rfl, hs⟩
  refine ⟨_, hrun, rfl, fun hquiet => ?_, fun i j k l hi hj => hs.excl.eq hi hj⟩
  rw [← hs.covers.quiet hquiet]
  rfl

/-- A client enqueues a job, and a worker is in the middle of `dequeue`. -/
def handover (w : Fin n) : List (Action n) := [
  .own (.testRunning w), .call 0 ⟨1, {}, none, 0, 0⟩, .lock (.client 0), .act (.client 0),
  .act (.client 0), .notify (.client 0) none, .unlock (.client 0),
  .lock (.worker w), .act (.worker w)]

theorem sections_atomic_handover : ∃ (s : State 1) (u : Pool.State 1),
    s.queue.holder = some (.worker 0) ∧ u.jobs.length = 1 ∧ Agrees s u := by
  have hrun : (Lts.run (step .fcfs []) (init 1) (handover 0)).map (fun s => s.queue.holder)
      = some (some (.worker 0)) := by decide
  rcases Option.map_eq_some_iff.mp hrun with ⟨s, hs, hholder⟩
  rcases sections_atomic .fcfs [] 1 (handover 0) s hs with ⟨u, hu, hagrees⟩
  have hjobs : (Lts.run (Shutdown.step .fcfs) (Pool.init 1) (Lts.trace (step .fcfs []) shows
      (init 1) (handover 0))).map (fun u => u.jobs.length) = some 1 := by decide
  rw [hu, Option.map_some, Option.some.injEq] at hjobs
  exact ⟨s, u, hholder, hjobs, hagrees⟩

end Locks

end Isolyx
