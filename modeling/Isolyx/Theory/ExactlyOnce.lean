import Isolyx.Core.Pool
import Isolyx.Library.Tally

/-!
# Exactly-Once Completion

No interleaving of clients, workers and a stopping pool loses a job, runs it
in two places or reports it twice.

The argument is one of balance. An accepted job is in the deque, in a worker's
hands or completed, and `Inv.place` says that the number of times an id occurs
in these places together is the number of times it was accepted, which is once
since ids are new. A step moves an id from one place to another, so the sum
does not change. The reports balance the same way: `submitResult` was called
once for each completed job and once for each job in the hands of a worker
that is past the call, and `Inv.filed` counts both sides.

The scheduler enters at one point only, `inv_pop`: whichever job
`getNextJob` selects, it takes that job out of the deque and keeps the others.
That is why the four schedulers need no separate argument.

That a promise is never set twice is the one place where two workers have to
be told apart. A worker about to set the promise of a job holds that job, so
no other worker does (`inv_alone`), and a promise that was already set belongs
to a job that is further on than this worker is.

The counter of bursts is an `int`, which counts the preemptions as far as it
can: it wraps around after 2147483647 of them (`counter_overflows`).

## Main definitions

* `stage`: Whether a worker holds a job in a phase of a kind.
* `Genuine`: A job object agrees with the job accepted under its id.
* `Inv`: What every step of the pool preserves.
* `ExactlyOnce`: Every accepted job is in one place and is reported once.

## Theorems

* `inv_setWorker`: A worker moves on without touching anything shared.
* `inv_pop`: The scheduler hands a worker a job out of the deque.
* `inv_accept`: A client hands over a new job.
* `inv_alone`: Nobody else has a job with the id of one in a worker's hands.
* `inv_requeue`: A preempted job goes back into the deque.
* `inv_hands`: A step of one worker with the job in its hands.
* `inv_unset`: The promise about to be set has not been set.
* `inv_step`: Every step preserves the invariant.
* `exactly_once`: The pool handles every accepted job exactly once.
* `counter_overflows`: A job is preempted more often than an `int` counts.
-/

namespace Isolyx

namespace Pool

open MLFQScheduler (demote demote_id demote_resultPromise demote_elapsedBursts)
open Threads (tally tally_update tally_update_same tally_congr tally_mono le_tally add_le_tally
  exists_of_tally_pos)

variable {n : Nat}

/-- One for a worker that holds job `i` in a phase satisfying `p`. -/
def stage (p : Worker → Bool) (i : Nat) (v : Worker) : Nat :=
  match p v, v.job? with
  | true, some job => if job.id = i then 1 else 0
  | _, _ => 0

/-- The worker holds job `i`. -/
def holding : Nat → Worker → Nat := stage fun _ => true

/-- The worker holds job `i` and has called `submitResult` for it. -/
def filed : Nat → Worker → Nat := stage fun
  | .submitting _ _ | .submitted _ _ | .settled _ => true
  | _ => false

/-- The worker holds job `i` and its `submitResult` has returned. -/
def reported : Nat → Worker → Nat := stage fun
  | .submitted _ _ | .settled _ => true
  | _ => false

/-- The worker holds job `i` and is past setting its promise. -/
def paid : Nat → Worker → Nat := stage fun
  | .settled _ => true
  | _ => false

theorem stage_le {p q : Worker → Bool} (h : ∀ v, p v = true → q v = true) (i : Nat)
    (v : Worker) : stage p i v ≤ stage q i v := by
  cases hp : p v with
  | false => simp only [stage, hp, Nat.zero_le]
  -- A phase that counts for `p` counts for `q` too, and both read the same job.
  | true => simp only [stage, hp, h v hp, Nat.le_refl]

theorem stage_of_idle {p : Worker → Bool} {i : Nat} {v : Worker} (h : v.job? = none) :
    stage p i v = 0 := by
  unfold stage
  split
  · rename_i job _ hjob
    rw [h] at hjob
    simp only [reduceCtorEq] at hjob
  · rfl

theorem job?_of_stage_pos {p : Worker → Bool} {i : Nat} {v : Worker} (h : 0 < stage p i v) :
    ∃ job, v.job? = some job ∧ job.id = i := by
  unfold stage at h
  split at h
  · rename_i job _ hjob
    refine ⟨job, hjob, ?_⟩
    by_contra hne
    rw [if_neg hne] at h
    exact absurd h (Nat.lt_irrefl 0)
  · exact absurd h (Nat.lt_irrefl 0)

theorem tally_notifyOne {f : Worker → Nat} (hf : f .waiting = f .dequeuing)
    {ws ws' : Fin n → Worker} {wake : Option (Fin n)} (h : notifyOne ws wake = some ws') :
    tally f ws' = tally f ws := by
  cases wake with
  | none =>
      simp only [notifyOne] at h
      split at h
      · simp only [reduceCtorEq] at h
      · rw [Option.some.inj h]
  | some w =>
      simp only [notifyOne] at h
      split at h
      · rename_i hw
        rw [← Option.some.inj h]
        have hu := tally_update f ws w .dequeuing
        rw [hw] at hu
        omega
      · simp only [reduceCtorEq] at h

theorem tally_notifyAll {f : Worker → Nat} (hf : f .waiting = f .dequeuing)
    (ws : Fin n → Worker) : tally f (notifyAll ws) = tally f ws := by
  refine tally_congr fun w => ?_
  simp only [notifyAll]
  split
  · rename_i hw
    rw [hw, hf]
  · rfl

/-- The job object is the one accepted under its id, and its counter has counted
    how often it was requeued. -/
def Genuine (s : State n) (job : Job) : Prop :=
  ∃ a ∈ s.accepted, a.id = job.id ∧ a.resultPromise = job.resultPromise ∧
    job.elapsedBursts = int32 (s.requeued.count job.id)

theorem Genuine.bursts {s : State n} {job : Job} (h : Genuine s job) :
    job.elapsedBursts = int32 (s.requeued.count job.id) := by
  rcases h with ⟨_, _, _, _, hbursts⟩
  exact hbursts

/-- What every step of the pool preserves. -/
structure Inv (s : State n) : Prop where
  place : ∀ i, (s.jobs.map Job.id).count i + tally (holding i) s.workers + s.completed.count i
    = (s.accepted.map Job.id).count i
  filed : ∀ i, s.submissions.count i = tally (filed i) s.workers + s.completed.count i
  reported : ∀ i, s.returned.count i = tally (reported i) s.workers + s.completed.count i
  ids : (s.accepted.map Job.id).Nodup
  promises : ∀ a ∈ s.accepted, ∀ b ∈ s.accepted, ∀ p, a.resultPromise = some p →
    b.resultPromise = some p → a.id = b.id
  queued : ∀ job ∈ s.jobs, Genuine s job
  inHands : ∀ w job, (s.workers w).job? = some job → Genuine s job
  requeued : ∀ i ∈ s.requeued, i ∈ s.accepted.map Job.id
  setOnce : s.satisfied.Nodup
  setLate : ∀ p ∈ s.satisfied, ∃ a ∈ s.accepted, a.resultPromise = some p ∧
    0 < tally (paid a.id) s.workers + s.completed.count a.id
  defined : s.undefined = false
  unbroken : s.broken = false

theorem inv_init : Inv (init n) where
  place i := by
    have : tally (holding i) (init n).workers = 0 := Finset.sum_eq_zero fun _ _ => rfl
    rw [this]
    rfl
  filed i := by
    have : tally (Pool.filed i) (init n).workers = 0 := Finset.sum_eq_zero fun _ _ => rfl
    rw [this]
    rfl
  reported i := by
    have : tally (Pool.reported i) (init n).workers = 0 := Finset.sum_eq_zero fun _ _ => rfl
    rw [this]
    rfl
  ids := List.nodup_nil
  promises a ha := absurd ha List.not_mem_nil
  queued job h := absurd h List.not_mem_nil
  inHands w job h := by simp only [init, Worker.job?, reduceCtorEq] at h
  requeued i h := absurd h List.not_mem_nil
  setOnce := List.nodup_nil
  setLate p h := absurd h List.not_mem_nil
  defined := rfl
  unbroken := rfl

/-- Two phases with the same share in every tally of the invariant. -/
structure Alike (u v : Worker) : Prop where
  holding : ∀ i, holding i u = holding i v
  filed : ∀ i, Pool.filed i u = Pool.filed i v
  reported : ∀ i, Pool.reported i u = Pool.reported i v
  paid : ∀ i, paid i u = paid i v

/-- A worker moves on without touching anything shared. -/
theorem inv_setWorker {s : State n} (hi : Inv s) {w : Fin n} {u v : Worker}
    (hw : s.workers w = u) (ha : Alike u v) (hg : ∀ job, v.job? = some job → Genuine s job) :
    Inv (setWorker s w v) where
  place i := by
    simp only [setWorker, tally_update_same hw (ha.holding i)]
    exact hi.place i
  filed i := by
    simp only [setWorker, tally_update_same hw (ha.filed i)]
    exact hi.filed i
  reported i := by
    simp only [setWorker, tally_update_same hw (ha.reported i)]
    exact hi.reported i
  ids := hi.ids
  promises := hi.promises
  queued := hi.queued
  inHands x job hx := by
    -- Worker `x` is the one that moved, or its hands are as they were.
    rcases job?_setWorker hx with hv | ⟨_, hx⟩
    · exact hg job hv
    · exact hi.inHands x job hx
  requeued := hi.requeued
  setOnce := hi.setOnce
  setLate p hp := by
    rcases hi.setLate p hp with ⟨a, ha1, ha2, ha3⟩
    refine ⟨a, ha1, ha2, ?_⟩
    simp only [setWorker, tally_update_same hw (ha.paid a.id)]
    exact ha3
  defined := hi.defined
  unbroken := hi.unbroken

/-- A worker with empty hands moves on and its hands stay empty. -/
theorem inv_idle {s : State n} (hi : Inv s) {w : Fin n} {u v : Worker}
    (hw : s.workers w = u) (hu : u.job? = none) (hv : v.job? = none) :
    Inv (setWorker s w v) := by
  have hzero : ∀ p i, stage p i u = stage p i v := fun p i => by
    rw [stage_of_idle hu, stage_of_idle hv]
  refine inv_setWorker hi hw ⟨hzero _, hzero _, hzero _, hzero _⟩ fun job hj => ?_
  rw [hv] at hj
  simp only [reduceCtorEq] at hj

theorem count_ids_perm {jobs jobs' : List Job} (h : jobs.Perm jobs') (i : Nat) :
    (jobs.map Job.id).count i = (jobs'.map Job.id).count i :=
  (h.map Job.id).count_eq i

theorem count_ids_cons (job : Job) (jobs : List Job) (i : Nat) :
    ((job :: jobs).map Job.id).count i
      = (jobs.map Job.id).count i + if job.id = i then 1 else 0 := by
  simp only [List.map_cons, List.count_cons, beq_iff_eq]

theorem count_ids_snoc (job : Job) (jobs : List Job) (i : Nat) :
    ((jobs ++ [job]).map Job.id).count i
      = (jobs.map Job.id).count i + if job.id = i then 1 else 0 := by
  rw [count_ids_perm (List.perm_append_singleton job jobs), count_ids_cons]

/-- The scheduler hands a worker the job it took out of the deque. -/
theorem inv_pop {s : State n} (hi : Inv s) {w : Fin n} {job : Job} {rest : List Job}
    (hw : s.workers w = .dequeuing) (hp : s.jobs.Perm (job :: rest)) :
    Inv (setWorker { s with jobs := rest } w (.executing job)) where
  place i := by
    -- What the deque loses, the hands of `w` gain.
    have hm := tally_update (holding i) s.workers w (.executing job)
    have hplace := hi.place i
    rw [hw] at hm
    rw [count_ids_perm hp, count_ids_cons] at hplace
    simp only [holding, stage, Worker.job?, setWorker] at hm hplace ⊢
    omega
  filed i := by
    simp only [setWorker, tally_update_same hw (v := .executing job) (f := Pool.filed i) rfl]
    exact hi.filed i
  reported i := by
    simp only [setWorker, tally_update_same hw (v := .executing job) (f := Pool.reported i) rfl]
    exact hi.reported i
  ids := hi.ids
  promises := hi.promises
  queued x hx := hi.queued x (hp.mem_iff.mpr (List.mem_cons_of_mem _ hx))
  inHands x j hx := by
    rcases job?_setWorker hx with hv | ⟨_, hx⟩
    -- The job now held is the one that was in the deque.
    · simp only [Worker.job?, Option.some.injEq] at hv
      exact hv ▸ hi.queued job (hp.mem_iff.mpr List.mem_cons_self)
    · exact hi.inHands x j hx
  requeued := hi.requeued
  setOnce := hi.setOnce
  setLate p hp := by
    rcases hi.setLate p hp with ⟨a, ha1, ha2, ha3⟩
    refine ⟨a, ha1, ha2, ?_⟩
    simp only [setWorker, tally_update_same hw (v := .executing job) (f := paid a.id) rfl]
    exact ha3
  defined := hi.defined
  unbroken := hi.unbroken

/-- Waking waiters touches nothing the invariant speaks of. -/
theorem inv_notifyOne {s : State n} (hi : Inv s) {ws : Fin n → Worker} {wake : Option (Fin n)}
    (h : notifyOne s.workers wake = some ws) : Inv { s with workers := ws } where
  place i := by
    -- A waiter and one about to test the predicate have the same share in every tally.
    simp only [tally_notifyOne (f := holding i) rfl h]
    exact hi.place i
  filed i := by
    simp only [tally_notifyOne (f := Pool.filed i) rfl h]
    exact hi.filed i
  reported i := by
    simp only [tally_notifyOne (f := Pool.reported i) rfl h]
    exact hi.reported i
  ids := hi.ids
  promises := hi.promises
  queued := hi.queued
  inHands x job hx := by
    rw [job?_notifyOne h x] at hx
    exact hi.inHands x job hx
  requeued := hi.requeued
  setOnce := hi.setOnce
  setLate p hp := by
    rcases hi.setLate p hp with ⟨a, ha1, ha2, ha3⟩
    refine ⟨a, ha1, ha2, ?_⟩
    simp only [tally_notifyOne (f := paid a.id) rfl h]
    exact ha3
  defined := hi.defined
  unbroken := hi.unbroken

theorem genuine_accept {s : State n} {job a : Job} (h : Genuine s job) :
    Genuine { s with accepted := s.accepted ++ [a], jobs := s.jobs ++ [a] } job := by
  rcases h with ⟨b, hb, hrest⟩
  exact ⟨b, List.mem_append_left _ hb, hrest⟩

/-- A client hands over a job nobody has seen before. -/
theorem inv_accept {s : State n} (hi : Inv s) {sub : Submission}
    (hnew : sub.isNew s.accepted = true) :
    Inv { s with accepted := s.accepted ++ [sub.job], jobs := s.jobs ++ [sub.job] } := by
  rw [isNew_iff] at hnew
  -- The client's side of the contract: neither the id nor the promise was used before.
  have hfresh : sub.id ∉ s.accepted.map Job.id := by
    intro hmem
    rcases List.mem_map.mp hmem with ⟨a, ha, hid⟩
    exact (hnew a ha).1 hid
  have hclash : ∀ a ∈ s.accepted, ∀ p, sub.job.resultPromise = some p →
      a.resultPromise ≠ sub.job.resultPromise := by
    intro a ha p hp
    rcases (hnew a ha).2 with hnone | hne
    · exact absurd (hnone.symm.trans hp) (by simp only [reduceCtorEq, not_false_eq_true])
    · exact hne
  refine
    { place := fun i => ?_, filed := hi.filed, reported := hi.reported, ids := ?_,
      promises := ?_, queued := ?_, inHands := fun x job hx => genuine_accept (hi.inHands x job hx),
      requeued := fun i h => ?_, setOnce := hi.setOnce, setLate := fun p hp => ?_,
      defined := hi.defined, unbroken := hi.unbroken }
  -- The new job counts once among the accepted and once in the deque.
  · have hplace := hi.place i
    simp only [count_ids_snoc]
    omega
  · rw [List.map_append, List.map_singleton, List.nodup_append]
    refine ⟨hi.ids, List.nodup_singleton _, fun a ha b hb => ?_⟩
    rw [List.mem_singleton] at hb
    rintro rfl
    rw [hb] at ha
    exact hfresh ha
  · intro a ha b hb p hap hbp
    -- Two old jobs, or one of them is the new one, whose promise is its own.
    rcases List.mem_append.mp ha with ha | ha <;> rcases List.mem_append.mp hb with hb | hb
    · exact hi.promises a ha b hb p hap hbp
    · rw [List.mem_singleton.mp hb] at hbp
      exact absurd (hap.trans hbp.symm) (hclash a ha p hbp)
    · rw [List.mem_singleton.mp ha] at hap
      exact absurd (hbp.trans hap.symm) (hclash b hb p hap)
    · rw [List.mem_singleton.mp ha, List.mem_singleton.mp hb]
  · intro job hjob
    rcases List.mem_append.mp hjob with hjob | hjob
    · exact genuine_accept (hi.queued job hjob)
    · rw [List.mem_singleton] at hjob
      refine ⟨sub.job, List.mem_append_right _ (List.mem_singleton.mpr rfl), by rw [hjob],
        by rw [hjob], ?_⟩
      -- No accepted job had this id, so none was requeued under it.
      have hzero : s.requeued.count sub.id = 0 :=
        List.count_eq_zero.mpr fun h => hfresh (hi.requeued _ h)
      rw [hjob]
      simp only [Submission.job, hzero]
      rfl
  · rw [List.map_append]
    exact List.mem_append_left _ (hi.requeued i h)
  · rcases hi.setLate p hp with ⟨a, ha1, ha2, ha3⟩
    exact ⟨a, List.mem_append_left _ ha1, ha2, ha3⟩

/-- Nobody else has a job with the id of the one in a worker's hands. -/
theorem inv_alone {s : State n} (hi : Inv s) {w : Fin n} {job : Job}
    (hw : (s.workers w).job? = some job) :
    job.id ∉ s.jobs.map Job.id ∧ job.id ∉ s.completed ∧
      ∀ x, x ≠ w → ∀ j, (s.workers x).job? = some j → j.id ≠ job.id := by
  -- There is one place in all for this id, and it is the hands of `w`.
  have hone : holding job.id (s.workers w) = 1 := by
    simp only [holding, stage, hw, if_true]
  have hcount : (s.accepted.map Job.id).count job.id ≤ 1 :=
    List.nodup_iff_count_le_one.mp hi.ids job.id
  have hplace := hi.place job.id
  have hle := le_tally (holding job.id) s.workers w
  refine ⟨fun hmem => ?_, fun hmem => ?_, fun x hxw j hj hid => ?_⟩
  · have := List.count_pos_iff.mpr hmem
    omega
  · have := List.count_pos_iff.mpr hmem
    omega
  -- Two holders would make two places.
  · have htwo : holding job.id (s.workers x) = 1 := by
      simp only [holding, stage, hj, hid, if_true]
    have := add_le_tally (holding job.id) s.workers hxw
    omega

/-- A preempted job goes back into the deque with its counter raised. -/
theorem inv_requeue {s : State n} (hi : Inv s) {w : Fin n} {job : Job}
    (hw : s.workers w = .requeueing job) :
    Inv { setWorker s w .atLoopHead with
      requeued := job.id :: s.requeued
      jobs := s.jobs ++ [demote job] } := by
  have hjob : (s.workers w).job? = some job := by rw [hw]; rfl
  rcases inv_alone hi hjob with ⟨hq, _, hothers⟩
  -- A job with another id keeps its count.
  have hkeep : ∀ x : Job, x.id ≠ job.id → Genuine s x →
      Genuine { setWorker s w .atLoopHead with
        requeued := job.id :: s.requeued
        jobs := s.jobs ++ [demote job] } x := by
    rintro x hx ⟨a, ha, h1, h2, h3⟩
    refine ⟨a, ha, h1, h2, ?_⟩
    rw [h3]
    simp only [List.count_cons, beq_iff_eq, if_neg (fun h => hx h.symm : ¬ job.id = x.id),
      Nat.add_zero]
  refine
    { place := fun i => ?_, filed := fun i => ?_, reported := fun i => ?_, ids := hi.ids,
      promises := hi.promises, queued := ?_, inHands := fun x j hx => ?_,
      requeued := fun i h => ?_, setOnce := hi.setOnce, setLate := fun p hp => ?_,
      defined := hi.defined, unbroken := hi.unbroken }
  -- What the hands of `w` lose, the deque gains.
  · have hm := tally_update (holding i) s.workers w .atLoopHead
    have hplace := hi.place i
    rw [hw] at hm
    rw [count_ids_snoc, demote_id]
    simp only [setWorker]
    simp only [holding, stage, Worker.job?] at hm hplace ⊢
    omega
  · simp only [setWorker, tally_update_same hw (v := .atLoopHead) (f := Pool.filed i) rfl]
    exact hi.filed i
  · simp only [setWorker, tally_update_same hw (v := .atLoopHead) (f := Pool.reported i) rfl]
    exact hi.reported i
  · intro x hx
    -- The counter of the requeued job goes up with the history; the others keep theirs.
    rcases List.mem_append.mp hx with hx | hx
    · exact hkeep x (fun h => hq (List.mem_map.mpr ⟨x, hx, h⟩)) (hi.queued x hx)
    · rw [List.mem_singleton] at hx
      rcases hi.inHands w job hjob with ⟨a, ha, h1, h2, h3⟩
      refine ⟨a, ha, by rw [hx, demote_id, h1], by rw [hx, demote_resultPromise, h2], ?_⟩
      rw [hx, demote_id, List.count_cons_self]
      exact demote_elapsedBursts h3
  · rcases job?_setWorker hx with hv | ⟨hxw, hx⟩
    · simp only [Worker.job?, reduceCtorEq] at hv
    · exact hkeep j (hothers x hxw j hx) (hi.inHands x j hx)
  · rcases List.mem_cons.mp h with rfl | h
    · rcases hi.inHands w job hjob with ⟨a, ha, h1, _⟩
      exact List.mem_map.mpr ⟨a, ha, h1⟩
    · exact hi.requeued i h
  · rcases hi.setLate p hp with ⟨a, ha1, ha2, ha3⟩
    refine ⟨a, ha1, ha2, ?_⟩
    simp only [setWorker, tally_update_same hw (v := .atLoopHead) (f := paid a.id) rfl]
    exact ha3

/-- A step of one worker with the job in its hands, which keeps that job, or
    completes it, and may file reports about it. -/
theorem inv_hands {s s' : State n} (hi : Inv s) (hjobs : s'.jobs = s.jobs)
    (haccepted : s'.accepted = s.accepted) (hrequeued : s'.requeued = s.requeued)
    (hundefined : s'.undefined = s.undefined) (hbroken : s'.broken = s.broken)
    (hplace : ∀ i, tally (holding i) s'.workers + s'.completed.count i
      = tally (holding i) s.workers + s.completed.count i)
    (hfiled : ∀ i, s'.submissions.count i = tally (Pool.filed i) s'.workers + s'.completed.count i)
    (hreported : ∀ i, s'.returned.count i
      = tally (Pool.reported i) s'.workers + s'.completed.count i)
    (hhands : ∀ x j, (s'.workers x).job? = some j → ∃ y, (s.workers y).job? = some j)
    (hpaid : ∀ i, tally (paid i) s.workers + s.completed.count i
      ≤ tally (paid i) s'.workers + s'.completed.count i)
    (hsatisfied : s'.satisfied.Nodup ∧ ∀ p ∈ s'.satisfied, p ∈ s.satisfied ∨
      ∃ a ∈ s.accepted, a.resultPromise = some p ∧ 0 < tally (paid a.id) s'.workers) :
    Inv s' := by
  have hgenuine : ∀ j, Genuine s j → Genuine s' j := by
    intro j hj
    rw [Genuine, haccepted, hrequeued]
    exact hj
  refine
    { place := fun i => ?_, filed := hfiled, reported := hreported, ids := haccepted ▸ hi.ids,
      promises := haccepted ▸ hi.promises, queued := fun j hj => ?_, inHands := fun x j hx => ?_,
      requeued := ?_, setOnce := hsatisfied.1, setLate := fun p hp => ?_,
      defined := hundefined ▸ hi.defined, unbroken := hbroken ▸ hi.unbroken }
  · have := hi.place i
    have := hplace i
    rw [hjobs, haccepted]
    omega
  · rw [hjobs] at hj
    exact hgenuine j (hi.queued j hj)
  · rcases hhands x j hx with ⟨y, hy⟩
    exact hgenuine j (hi.inHands y j hy)
  · rw [haccepted, hrequeued]
    exact hi.requeued
  · rw [haccepted]
    rcases hsatisfied.2 p hp with hold | ⟨a, ha, hap, hpos⟩
    · rcases hi.setLate p hold with ⟨a, ha, hap, hpos⟩
      exact ⟨a, ha, hap, Nat.lt_of_lt_of_le hpos (hpaid a.id)⟩
    · exact ⟨a, ha, hap, by omega⟩

/-- The hands after worker `w` moved on with the job it already held. -/
theorem hands_setWorker {s : State n} {w : Fin n} {v : Worker} (job : Job)
    (hw : (s.workers w).job? = some job) (hv : ∀ j, v.job? = some j → j = job) (x : Fin n)
    (j : Job) (hx : ((setWorker s w v).workers x).job? = some j) :
    ∃ y, (s.workers y).job? = some j := by
  rcases job?_setWorker hx with hx | ⟨_, hx⟩
  · exact ⟨w, by rw [hv j hx]; exact hw⟩
  · exact ⟨x, hx⟩

/-- The worker calls `submitResult`. -/
theorem inv_callSubmitResult {s : State n} (hi : Inv s) {w : Fin n} {job : Job}
    {res : ExecutionResult} (hw : s.workers w = .finished job res) :
    Inv { setWorker s w (.submitting job res) with submissions := job.id :: s.submissions } := by
  have hsame : ∀ {f : Worker → Nat}, f (.finished job res) = f (.submitting job res) →
      tally f (setWorker s w (.submitting job res)).workers = tally f s.workers :=
    fun h => tally_update_same hw h
  refine inv_hands hi rfl rfl rfl rfl rfl (fun i => ?_) (fun i => ?_) (fun i => ?_)
    (hands_setWorker job (by rw [hw]; rfl) (fun j hj => ?_)) (fun i => ?_)
    ⟨hi.setOnce, fun p hp => Or.inl hp⟩
  · exact congrArg (· + s.completed.count i) (hsame rfl)
  -- The call is counted on both sides: in the history, and at the worker past it.
  · have hm := tally_update (Pool.filed i) s.workers w (.submitting job res)
    have hfiled := hi.filed i
    rw [hw] at hm
    simp only [setWorker, List.count_cons, beq_iff_eq]
    simp only [Pool.filed, stage, Worker.job?] at hm hfiled ⊢
    omega
  · exact (hi.reported i).trans (congrArg (· + s.completed.count i) (hsame rfl).symm)
  · simp only [Worker.job?, Option.some.injEq] at hj
    exact hj.symm
  · exact Nat.le_of_eq (congrArg (· + s.completed.count i) (hsame rfl).symm)

/-- `submitResult` returns to the worker. -/
theorem inv_returnFromSubmitResult {s : State n} (hi : Inv s) {w : Fin n} {job : Job}
    {res : ExecutionResult} (hw : s.workers w = .submitting job res) :
    Inv { setWorker s w (.submitted job res) with returned := job.id :: s.returned } := by
  have hsame : ∀ {f : Worker → Nat}, f (.submitting job res) = f (.submitted job res) →
      tally f (setWorker s w (.submitted job res)).workers = tally f s.workers :=
    fun h => tally_update_same hw h
  refine inv_hands hi rfl rfl rfl rfl rfl (fun i => ?_) (fun i => ?_) (fun i => ?_)
    (hands_setWorker job (by rw [hw]; rfl) (fun j hj => ?_)) (fun i => ?_)
    ⟨hi.setOnce, fun p hp => Or.inl hp⟩
  · exact congrArg (· + s.completed.count i) (hsame rfl)
  · exact (hi.filed i).trans (congrArg (· + s.completed.count i) (hsame rfl).symm)
  -- So is the return.
  · have hm := tally_update (Pool.reported i) s.workers w (.submitted job res)
    have hreported := hi.reported i
    rw [hw] at hm
    simp only [setWorker, List.count_cons, beq_iff_eq]
    simp only [Pool.reported, stage, Worker.job?] at hm hreported ⊢
    omega
  · simp only [Worker.job?, Option.some.injEq] at hj
    exact hj.symm
  · exact Nat.le_of_eq (congrArg (· + s.completed.count i) (hsame rfl).symm)

/-- The promise of a job whose `submitResult` has just returned is not set. -/
theorem inv_unset {s : State n} (hi : Inv s) {w : Fin n} {job : Job} {res : ExecutionResult}
    {p : Nat} (hw : s.workers w = .submitted job res) (hp : job.resultPromise = some p) :
    p ∉ s.satisfied := by
  intro hmem
  have hjob : (s.workers w).job? = some job := by rw [hw]; rfl
  rcases inv_alone hi hjob with ⟨_, hcompleted, hothers⟩
  -- Were it set, it would be set for this job, by someone further on than `w`.
  rcases hi.setLate p hmem with ⟨a, ha, hap, hpos⟩
  rcases hi.inHands w job hjob with ⟨b, hb, hbid, hbp, _⟩
  have hid : a.id = job.id := (hi.promises a ha b hb p hap (hbp.trans hp)).trans hbid
  rw [hid, List.count_eq_zero.mpr hcompleted, Nat.add_zero] at hpos
  -- Only another worker could be past setting it, and none holds this job.
  rcases exists_of_tally_pos hpos with ⟨x, hx⟩
  have hxw : x ≠ w := by
    rintro rfl
    rw [hw] at hx
    exact absurd hx (Nat.lt_irrefl 0)
  rcases job?_of_stage_pos hx with ⟨j, hj, hjid⟩
  exact hothers x hxw j hj hjid

/-- The worker sets the promise, if the job has one. -/
theorem inv_setPromise {s : State n} (hi : Inv s) {w : Fin n} {job : Job}
    {res : ExecutionResult} (hw : s.workers w = .submitted job res) (satisfied : List Nat)
    (hs : satisfied = s.satisfied ∨
      ∃ p, job.resultPromise = some p ∧ satisfied = p :: s.satisfied) :
    Inv { setWorker s w (.settled job) with satisfied := satisfied } := by
  have hjob : (s.workers w).job? = some job := by rw [hw]; rfl
  have hsame : ∀ {f : Worker → Nat}, f (.submitted job res) = f (.settled job) →
      tally f (setWorker s w (.settled job)).workers = tally f s.workers :=
    fun h => tally_update_same hw h
  have hpaid : ∀ i, tally (paid i) (setWorker s w (.settled job)).workers
      = tally (paid i) s.workers + if job.id = i then 1 else 0 := by
    intro i
    have hm := tally_update (paid i) s.workers w (.settled job)
    rw [hw] at hm
    simpa only [paid, stage, Worker.job?, setWorker, Nat.add_zero] using hm
  refine inv_hands hi rfl rfl rfl rfl rfl (fun i => ?_) (fun i => ?_) (fun i => ?_)
    (hands_setWorker _ hjob (fun j hj => ?_)) (fun i => ?_) ⟨?_, fun p hp => ?_⟩
  · exact congrArg (· + s.completed.count i) (hsame rfl)
  · exact (hi.filed i).trans (congrArg (· + s.completed.count i) (hsame rfl).symm)
  · exact (hi.reported i).trans (congrArg (· + s.completed.count i) (hsame rfl).symm)
  · simp only [Worker.job?, Option.some.injEq] at hj
    exact hj.symm
  · have := hpaid i
    simp only [setWorker] at this ⊢
    omega
  · rcases hs with rfl | ⟨p, hp, rfl⟩
    · exact hi.setOnce
    · exact List.nodup_cons.mpr ⟨inv_unset hi hw hp, hi.setOnce⟩
  · rcases hs with rfl | ⟨q, hq, rfl⟩
    · exact Or.inl hp
    · rcases List.mem_cons.mp hp with rfl | hp
      -- This worker itself is now past setting it.
      · rcases hi.inHands w job hjob with ⟨a, ha, hid, hap, _⟩
        refine Or.inr ⟨a, ha, hap.trans hq, ?_⟩
        have := hpaid a.id
        rw [if_pos hid.symm] at this
        simp only [setWorker] at this ⊢
        omega
      · exact Or.inl hp

/-- The iteration ends and the job is completed. -/
theorem inv_endIteration {s : State n} (hi : Inv s) {w : Fin n} {job : Job}
    (hw : s.workers w = .settled job) :
    Inv { setWorker s w .atLoopHead with completed := job.id :: s.completed } := by
  -- What the hands lose, the completed jobs gain, for each of the three balances.
  have hmove : ∀ {f : Nat → Worker → Nat} (i : Nat), f i .atLoopHead = 0 →
      (f i (.settled job) = if job.id = i then 1 else 0) →
      tally (f i) (setWorker s w .atLoopHead).workers + (job.id :: s.completed).count i
        = tally (f i) s.workers + s.completed.count i := by
    intro f i hzero hone
    have hm := tally_update (f i) s.workers w .atLoopHead
    rw [hw, hzero, hone] at hm
    simp only [setWorker, List.count_cons, beq_iff_eq]
    omega
  refine inv_hands hi rfl rfl rfl rfl rfl (fun i => ?_) (fun i => ?_) (fun i => ?_)
    (hands_setWorker job (by rw [hw]; rfl) (fun j hj => ?_)) (fun i => ?_)
    ⟨hi.setOnce, fun p hp => Or.inl hp⟩
  · exact hmove i rfl rfl
  · exact (hi.filed i).trans (hmove i rfl rfl).symm
  · exact (hi.reported i).trans (hmove i rfl rfl).symm
  · simp only [Worker.job?, reduceCtorEq] at hj
  · exact Nat.le_of_eq (hmove i rfl rfl).symm

/-- The queue is stopped and every waiter woken. -/
theorem inv_stopQueue {s : State n} (hi : Inv s) :
    Inv { s with stopping := true, stopper := .joining, workers := notifyAll s.workers } := by
  have hsame : ∀ {f : Worker → Nat}, f .waiting = f .dequeuing →
      tally f (notifyAll s.workers) = tally f s.workers := fun h => tally_notifyAll h s.workers
  refine inv_hands hi rfl rfl rfl rfl rfl (fun i => ?_) (fun i => ?_) (fun i => ?_)
    (fun x j hx => ⟨x, ?_⟩) (fun i => ?_) ⟨hi.setOnce, fun p hp => Or.inl hp⟩
  · exact congrArg (· + s.completed.count i) (hsame rfl)
  · exact (hi.filed i).trans (congrArg (· + s.completed.count i) (hsame rfl).symm)
  · exact (hi.reported i).trans (congrArg (· + s.completed.count i) (hsame rfl).symm)
  · simp only [notifyAll] at hx
    split at hx
    · simp only [Worker.job?, reduceCtorEq] at hx
    · exact hx
  · exact Nat.le_of_eq (congrArg (· + s.completed.count i) (hsame rfl).symm)

theorem inv_moves {sched : Scheduler} {s t : State n} {a : Action n} (hi : Inv s)
    (h : Moves sched s a t) : Inv t := by
  cases h with
  -- the two jobs that are enqueued are a client's and a preempted one
  | enqueues sub wake ws hnew hwake => exact inv_notifyOne (inv_accept hi hnew) hwake
  | requeues w job wake ws hw hwake => exact inv_notifyOne (inv_requeue hi hw) hwake
  | enters w hw | leaves w hw | blocks w hw | departs w hw | wakes w hw =>
      exact inv_idle hi hw rfl rfl
  -- all four schedulers take out the job they return and nothing else
  | takes w job rest hw hg => exact inv_pop hi hw (Scheduler.getNextJob_perm hg)
  | preempts w job res pid uniqueId hw hp | finishes w job res pid uniqueId hw hp =>
      -- the two fields rewritten are none the invariant reads
      have hg : Genuine s { job with pid := pid, uniqueId := uniqueId } :=
        hi.inHands w job (by rw [hw]; rfl)
      refine inv_setWorker hi hw ⟨fun _ => rfl, fun _ => rfl, fun _ => rfl, fun _ => rfl⟩
        fun j hj => ?_
      rw [← Option.some.inj hj]
      exact hg
  | files w job res hw => exact inv_callSubmitResult hi hw
  | reports w job res hw => exact inv_returnFromSubmitResult hi hw
  | passes w job res hw hp => exact inv_setPromise hi hw s.satisfied (.inl rfl)
  -- `set_value` does not throw
  | breaks w job res p hw hp hset => exact absurd hset (inv_unset hi hw hp)
  | pays w job res p hw hp hset => exact inv_setPromise hi hw (p :: s.satisfied) (.inr ⟨p, hp, rfl⟩)
  | ends w job hw => exact inv_endIteration hi hw
  | stops hs => exact inv_stopQueue hi
  | clears hs | joins hs hw => exact { hi with }

theorem inv_step {sched : Scheduler} {s t : State n} {a : Action n} (hi : Inv s)
    (h : step sched s a = some t) : Inv t := inv_moves hi (moves_of_step h)

theorem inv_run {sched : Scheduler} {actions : List (Action n)} {s : State n}
    (h : Lts.run (step sched) (init n) actions = some s) : Inv s :=
  Lts.run_invariant (fun _ _ _ hi hs => inv_step hi hs) inv_init h

/-- A result was filed for an accepted job only, and once. -/
theorem count_submissions_le {s : State n} (hi : Inv s) (i : Nat) :
    s.submissions.count i ≤ (s.accepted.map Job.id).count i := by
  have hfiled := hi.filed i
  have hplace := hi.place i
  have hle : tally (filed i) s.workers ≤ tally (holding i) s.workers :=
    tally_mono (fun v => stage_le (fun _ _ => rfl) i v) _
  omega

/-- How many workers have job `i` in their hands. -/
def holders (s : State n) (i : Nat) : Nat := tally (holding i) s.workers

/-- Every accepted job is in one place and is reported once. -/
structure ExactlyOnce (s : State n) : Prop where
  /-- The deque, the workers' hands and the completed jobs hold it once between them. -/
  place : ∀ a ∈ s.accepted,
    (s.jobs.map Job.id).count a.id + holders s a.id + s.completed.count a.id = 1
  /-- `getNextJob` was never called on an empty deque. -/
  defined : s.undefined = false
  completed : ∀ i ∈ s.completed, s.submissions.count i = 1
  held : ∀ w job, (s.workers w).job? = some job → s.submissions.count job.id ≤ 1
  queued : ∀ job ∈ s.jobs, s.submissions.count job.id = 0
  setOnce : s.satisfied.Nodup
  setLate : ∀ a ∈ s.accepted, ∀ p ∈ s.satisfied, a.resultPromise = some p → a.id ∈ s.returned
  /-- `set_value` never threw. -/
  unbroken : s.broken = false
  /-- The counter is an `int` that has counted the preemptions. -/
  bursts : ∀ job, (job ∈ s.jobs ∨ ∃ w, (s.workers w).job? = some job) →
    job.elapsedBursts = int32 (s.requeued.count job.id)
  /-- Up to the largest `int` it is their number. -/
  counted : ∀ job, (job ∈ s.jobs ∨ ∃ w, (s.workers w).job? = some job) →
    s.requeued.count job.id ≤ 2147483647 → job.elapsedBursts = s.requeued.count job.id

/-- A worker that has filed a job holds it. -/
theorem filed_le_holding (i : Nat) (v : Worker) : Pool.filed i v ≤ holding i v :=
  stage_le (fun _ _ => rfl) i v

/-- A worker past setting the promise is past the return of `submitResult`. -/
theorem paid_le_reported (i : Nat) (v : Worker) : paid i v ≤ Pool.reported i v := by
  refine stage_le (fun v hv => ?_) i v
  cases v <;> first | rfl | exact absurd hv (by simp only [Bool.false_eq_true, not_false_eq_true])

/-- An accepted id has one place. -/
theorem inv_place_one {s : State n} (hi : Inv s) {i : Nat} (h : i ∈ s.accepted.map Job.id) :
    (s.jobs.map Job.id).count i + holders s i + s.completed.count i = 1 := by
  have hcount := List.count_eq_one_of_mem hi.ids h
  have hplace := hi.place i
  unfold holders
  omega

/-- The deque holds no id twice. -/
theorem inv_queue_nodup {s : State n} (hi : Inv s) : (s.jobs.map Job.id).Nodup := by
  refine List.nodup_iff_count_le_one.mpr fun i => ?_
  have hplace := hi.place i
  have hone := List.nodup_iff_count_le_one.mp hi.ids i
  omega

/-- Wherever a job object is, its id was accepted. -/
theorem genuine_accepted {s : State n} {job : Job} (h : Genuine s job) :
    job.id ∈ s.accepted.map Job.id := by
  rcases h with ⟨a, ha, hid, _⟩
  exact List.mem_map.mpr ⟨a, ha, hid⟩

theorem inv_bursts {s : State n} (hi : Inv s) {job : Job}
    (hjob : job ∈ s.jobs ∨ ∃ w, (s.workers w).job? = some job) :
    job.elapsedBursts = int32 (s.requeued.count job.id) := by
  have hg : Genuine s job := by
    rcases hjob with hjob | ⟨w, hw⟩
    · exact hi.queued job hjob
    · exact hi.inHands w job hw
  exact hg.bursts

theorem exactlyOnce_of_inv {s : State n} (hi : Inv s) : ExactlyOnce s where
  place a ha := inv_place_one hi (List.mem_map.mpr ⟨a, ha, rfl⟩)
  defined := hi.defined
  completed i hmem := by
    -- Completed is its one place, so nobody holds it and the call was counted there.
    have hpos := List.count_pos_iff.mpr hmem
    have hacc : i ∈ s.accepted.map Job.id := by
      rw [← List.count_pos_iff, ← hi.place i]
      omega
    have hone := inv_place_one hi hacc
    have hfiled := hi.filed i
    have hle := tally_mono (filed_le_holding i) s.workers
    unfold holders at hone
    omega
  held w job hw := by
    -- At most the worker that holds it has called.
    have hone := inv_place_one hi (genuine_accepted (hi.inHands w job hw))
    have hfiled := hi.filed job.id
    have hle := tally_mono (filed_le_holding job.id) s.workers
    unfold holders at hone
    omega
  queued job hjob := by
    have hone := inv_place_one hi (genuine_accepted (hi.queued job hjob))
    -- In the deque is its one place, so no worker past the call holds it.
    have hpos : 0 < (s.jobs.map Job.id).count job.id :=
      List.count_pos_iff.mpr (List.mem_map.mpr ⟨job, hjob, rfl⟩)
    have hfiled := hi.filed job.id
    have hle := tally_mono (filed_le_holding job.id) s.workers
    unfold holders at hone
    omega
  setOnce := hi.setOnce
  setLate a ha p hp hap := by
    -- A promise belongs to one job, so the job it was set for is this one.
    rcases hi.setLate p hp with ⟨b, hb, hbp, hpos⟩
    have hid : b.id = a.id := hi.promises b hb a ha p hbp hap
    have hle := tally_mono (paid_le_reported a.id) s.workers
    have hreported := hi.reported a.id
    rw [hid] at hpos
    exact List.count_pos_iff.mp (by omega)
  unbroken := hi.unbroken
  bursts job hjob := inv_bursts hi hjob
  counted job hjob hfew := by
    have hfits : Fits (s.requeued.count job.id) := by
      unfold Fits
      omega
    rw [inv_bursts hi hjob, int32_of_fits hfits]

/-- In every state any interleaving reaches, for any number of workers and
    under any of the four schedulers, the pool handles every accepted job
    exactly once. -/
theorem exactly_once (sched : Scheduler) (n : Nat) (actions : List (Action n)) (s : State n)
    (h : Lts.run (step sched) (init n) actions = some s) : ExactlyOnce s :=
  exactlyOnce_of_inv (inv_run h)

/-- Two workers share one job: the first is preempted and the second, which
    takes the requeued job, finishes it. -/
theorem exactly_once_shared_job :
    ∃ s : State 2, s.completed = [1] ∧ s.requeued = [1] ∧ s.satisfied = [7] ∧ ExactlyOnce s :=
  ⟨_, rfl, rfl, rfl, exactly_once .mlfq 2
    [.testRunning 0, .dequeue 0, .enqueue { id := 1, cmd := {}, resultPromise := some 7 } (some 0),
      .dequeue 0, .execute 0 { preempted := true } 100 1, .testRunning 1, .requeue 0 none,
      .dequeue 1, .execute 1 { exitCode := 0, success := true } 100 1, .callSubmitResult 1,
      .returnFromSubmitResult 1, .setPromise 1, .endIteration 1] _ rfl⟩

/-! ## The counter overflows -/

/-- The counter is the number of preemptions itself. -/
def CountsBursts (s : State n) : Prop :=
  ∀ job, (job ∈ s.jobs ∨ ∃ w, (s.workers w).job? = some job) →
    job.elapsedBursts = s.requeued.count job.id

/-- A worker takes a job, which is preempted, and puts it back. -/
def preemption (w : Fin n) : List (Action n) :=
  [.testRunning w, .dequeue w, .execute w { preempted := true } 100 1, .requeue w none]

/-- A job is enqueued and preempted `k` times. -/
def preemptedTimes (w : Fin n) (k : Nat) : List (Action n) :=
  .enqueue { id := 1, cmd := {}, resultPromise := none } none ::
    (List.replicate k (preemption w)).flatten

/-- The worker is between two iterations, and the only job was put back `k` times. -/
structure PutBack (k : Nat) (s : State 1) : Prop where
  running : s.running = true
  head : s.workers 0 = .atLoopHead
  job : ∃ job, s.jobs = [job] ∧ job.id = 1
  count : s.requeued.count 1 = k

theorem putBack_preemption {k : Nat} {s : State 1} (h : PutBack k s) :
    ∃ t, Lts.run (step .mlfq) s (preemption 0) = some t ∧ PutBack (k + 1) t := by
  rcases h with ⟨hrunning, hhead, ⟨job, hjobs, hid⟩, hcount⟩
  have hworkers : s.workers = fun _ => .atLoopHead :=
    funext fun w => Subsingleton.elim w 0 ▸ hhead
  rcases s with ⟨jobs, stopping, running, workers, stopper, satisfied, undefined, broken, accepted,
    requeued, submissions, returned, completed⟩
  subst hrunning hworkers hjobs
  have hraised : (job.id :: requeued).count 1 = k + 1 := by
    rw [hid, List.count_cons_self, hcount]
  cases stopping with
  | false | true => exact ⟨_, rfl, rfl, rfl, ⟨_, rfl, hid⟩, hraised⟩

theorem putBack_preemptedTimes (k : Nat) :
    ∃ s, Lts.run (step .mlfq) (init 1) (preemptedTimes 0 k) = some s ∧ PutBack k s := by
  induction k with
  | zero => exact ⟨_, rfl, rfl, rfl, ⟨_, rfl, rfl⟩, rfl⟩
  | succ k ih =>
      rcases ih with ⟨s, hrun, hs⟩
      rcases putBack_preemption hs with ⟨t, hlast, ht⟩
      refine ⟨t, ?_, ht⟩
      have hsplit : preemptedTimes (0 : Fin 1) (k + 1) = preemptedTimes 0 k ++ preemption 0 := by
        rw [preemptedTimes, preemptedTimes, List.replicate_succ', List.flatten_append,
          List.flatten_singleton, List.cons_append]
      rw [hsplit]
      exact Lts.run_append.mpr ⟨s, hrun, hlast⟩

/-- After 2147483648 preemptions, the counter is negative. -/
theorem counter_overflows : ∃ s : State 1,
    Lts.run (step .mlfq) (init 1) (preemptedTimes 0 2147483648) = some s ∧ ¬ CountsBursts s := by
  rcases putBack_preemptedTimes 2147483648 with ⟨s, hrun, hs⟩
  rcases hs.job with ⟨job, hjobs, hid⟩
  have hjob : job ∈ s.jobs := hjobs ▸ List.mem_cons_self
  have hbursts := ((inv_run hrun).queued job hjob).bursts
  refine ⟨s, hrun, fun h => ?_⟩
  have hcounts := h job (.inl hjob)
  rw [hbursts, hid, hs.count] at hcounts
  exact absurd hcounts (by decide)

end Pool

end Isolyx
