import Isolyx.Core.Schedule
import Isolyx.Theory.ExactlyOnce

/-!
# Bounded Bypass

How often `MLFQScheduler` passes a waiting job over for another one, with any
number of workers, arrivals at any time and every interleaving.

A job that overtakes comes back one level further down each time, so it can
overtake at most as often as it has levels to go before it is on the level of
the job that waits. On that level only its place in the deque decides: a job
that was requeued stands behind, and one that is in front since the beginning
has one more turn.

The bound is carried through a run as a budget (`Budget`), a sum over the jobs
on both sides of the waiting one and over the jobs in the workers' hands that
may come back. A step that takes a job lowers the budget of that job by one,
which goes into the hands of the worker together with the rest; a job that is
requeued brings it back to the deque unchanged (`bypass_moves`).

## Main definitions

* `bypass`: How often one job in the deque may overtake another.
* `comingBack`: How often a job in a worker's hands may overtake it.
* `NoOverflow`: No level in the deque overflows, and no counter.
* `BoundedBypass`: No job overtakes more often.

## Theorems

* `bypass_moves`: A step spends what it takes.
* `served_le_budget`: So does a run.
* `bypass_bounded`: In every run, a waiting job is passed over as often as that.
-/

namespace Isolyx

namespace Pool

open MLFQScheduler (level demote demote_id)
open Threads (tally tally_update tally_update_same)

variable {n : Nat} {s t : State n} {a : Action n}

/-- How many levels a job has to go until it is on the level of `j`. -/
def gap (j job : Job) : Nat := (level j - level job).toNat

/-- How often a job that stands in front of `j` may overtake it. -/
def inFront (j job : Job) : Nat := gap j job + if level job = level j then 1 else 0

/-- How often the job in a worker's hands may overtake `j`, which it comes to
    stand behind. -/
def comingBack (j : Job) : Worker → Nat
  | .executing job | .requeueing job => (level j - (level job + 1)).toNat
  | _ => 0

/-- How often a job of the deque may overtake `j`. -/
def bypass (jobs : List Job) (j job : Job) : Nat :=
  gap j job + if level job = level j ∧ job ∈ jobs.takeWhile (· ≠ j) then 1 else 0

/-- What the counter of a job comes to that is about to go back into the deque. -/
def nextCount : Worker → Option Int
  | .requeueing job => some (job.elapsedBursts + 1)
  | _ => none

/-- No level in the deque overflows, and no counter of a job that goes back to it. -/
def NoOverflow (s : State n) : Prop :=
  (∀ job ∈ s.jobs, Fits (level job)) ∧ ∀ w, ∀ k ∈ nextCount (s.workers w), Fits k

instance (s : State n) : Decidable (NoOverflow s) := inferInstanceAs (Decidable (_ ∧ _))

/-! ## The budget -/

/-- A quantity summed over the jobs with an id that counts. -/
def weigh (p : Nat → Bool) (f : Job → Nat) (jobs : List Job) : Nat :=
  (jobs.map fun job => if p job.id then f job else 0).sum

theorem weigh_append (p : Nat → Bool) (f : Job → Nat) (jobs jobs' : List Job) :
    weigh p f (jobs ++ jobs') = weigh p f jobs + weigh p f jobs' := by
  rw [weigh, List.map_append, List.sum_append]
  rfl

theorem weigh_cons (p : Nat → Bool) (f : Job → Nat) (job : Job) (jobs : List Job) :
    weigh p f (job :: jobs) = (if p job.id then f job else 0) + weigh p f jobs := by
  rw [weigh, List.map_cons, List.sum_cons]
  rfl

theorem weigh_nil (p : Nat → Bool) (f : Job → Nat) : weigh p f [] = 0 := rfl

/-- The share of a worker in the budget, if its job counts. -/
def share (p : Nat → Bool) (j : Job) (v : Worker) : Nat :=
  match v.job? with
  | some job => if p job.id then comingBack j v else 0
  | none => 0

theorem share_idle {p : Nat → Bool} {j : Job} {v : Worker} (h : comingBack j v = 0) :
    share p j v = 0 := by
  unfold share
  split
  · rw [h, ite_self]
  · rfl

/-- How often the jobs that count may overtake `j`, with `front` in front of it
    and `behind` behind. -/
def Budget (p : Nat → Bool) (j : Job) (front behind : List Job) (ws : Fin n → Worker) : Nat :=
  weigh p (inFront j) front + weigh p (gap j) behind + tally (share p j) ws

/-- A worker with a smaller share makes the sum smaller. -/
theorem tally_share {p : Nat → Bool} {j : Job} {w : Fin n} {v : Worker}
    (h : share p j v ≤ share p j (s.workers w)) :
    tally (share p j) (setWorker s w v).workers ≤ tally (share p j) s.workers := by
  have htally := tally_update (share p j) s.workers w v
  have hws : (setWorker s w v).workers = Function.update s.workers w v := rfl
  rw [hws]
  omega

/-- How many of the jobs a step takes count. -/
def spent (p : Nat → Bool) (taken : Option Job) : Nat := taken.toList.countP fun job => p job.id

theorem spent_some (p : Nat → Bool) (job : Job) :
    spent p (some job) = if p job.id then 1 else 0 := by
  rw [spent, Option.toList_some, List.countP_singleton]

theorem share_executing (p : Nat → Bool) (j job : Job) :
    share p j (.executing job) = if p job.id then (level j - (level job + 1)).toNat else 0 := rfl

/-- A job that is taken spends one of its turns and goes to the worker with the
    others. -/
theorem bypass_takes {p : Nat → Bool} {j job : Job} {front behind rest : List Job} {w : Fin n}
    (hsplit : s.jobs = front ++ j :: behind) (hi : Inv s) (hfits : NoOverflow s)
    (hstay : j ∈ rest) (hw : s.workers w = .dequeuing)
    (hg : Scheduler.mlfq.getNextJob s.jobs = some (job, rest)) :
    ∃ front' behind', rest = front' ++ j :: behind' ∧
      spent p (some job) + Budget p j front' behind'
        (setWorker { s with jobs := rest } w (.executing job)).workers
        ≤ Budget p j front behind s.workers := by
  have htally := tally_update (share p j) s.workers w (.executing job)
  have hzero : share p j (s.workers w) = 0 := share_idle (by rw [hw]; rfl)
  have hws : (setWorker { s with jobs := rest } w (.executing job)).workers
      = Function.update s.workers w (.executing job) := rfl
  rw [hzero, share_executing] at htally
  rw [spent_some]
  rcases Scheduler.mlfq_getNextJob hfits.1 hg with ⟨pre, post, hjobs, hrest, hfirst⟩
  have hne : job ≠ j := by
    rintro rfl
    have hnodup := inv_queue_nodup hi
    rw [hjobs, List.map_append, List.map_cons] at hnodup
    have hout := (List.nodup_cons.mp (List.nodup_middle.mp hnodup)).1
    rw [← List.map_append, ← hrest] at hout
    exact hout (List.mem_map.mpr ⟨job, hstay, rfl⟩)
  rw [hsplit] at hjobs
  rcases List.append_eq_append_iff.mp hjobs with ⟨c, hpre, hc⟩ | ⟨c, hfront, hc⟩
  · cases c with
    | nil =>
        rw [List.nil_append, List.cons.injEq] at hc
        exact absurd hc.1.symm hne
    | cons y c =>
        -- the job stood behind `j`, so its level is less
        rw [List.cons_append, List.cons.injEq] at hc
        rcases hc with ⟨rfl, hbehind⟩
        refine ⟨front, c ++ post, by rw [hrest, hpre, List.append_assoc]; rfl, ?_⟩
        have hlt := hfirst.before j (hpre ▸ List.mem_append_right front List.mem_cons_self)
        have hgap : gap j job = 1 + (level j - (level job + 1)).toNat := by
          unfold gap
          omega
        rw [Budget, Budget, hbehind, weigh_append, weigh_append, weigh_cons, hgap, hws]
        split at htally <;> rename_i hp
        · rw [if_pos hp, if_pos hp]
          omega
        · rw [if_neg hp, if_neg hp]
          omega
  · cases c with
    | nil =>
        rw [List.nil_append, List.cons.injEq] at hc
        exact absurd hc.1 hne
    | cons y c =>
        -- the job stood in front, on a lower level or on the same one
        rw [List.cons_append, List.cons.injEq] at hc
        rcases hc with ⟨rfl, hpost⟩
        refine ⟨pre ++ c, behind, by rw [hrest, hpost, List.append_assoc], ?_⟩
        have hle := hfirst.after j (hpost ▸ List.mem_append_right c List.mem_cons_self)
        have hturn : 1 + (level j - (level job + 1)).toNat ≤ inFront j job := by
          unfold inFront gap
          split <;> omega
        rw [Budget, Budget, hfront, weigh_append, weigh_append, weigh_cons, hws]
        split at htally <;> rename_i hp
        · rw [if_pos hp, if_pos hp]
          omega
        · rw [if_neg hp, if_neg hp]
          omega

/-- An enqueued job stands behind. -/
theorem bypass_arrives {j job : Job} {front behind : List Job}
    (hsplit : s.jobs = front ++ j :: behind) :
    s.jobs ++ [job] = front ++ j :: (behind ++ [job]) := by
  rw [hsplit, List.append_assoc]
  rfl

/-- A step that leaves `j` in the deque spends what it takes. -/
theorem bypass_moves {p : Nat → Bool} {j : Job} {front behind : List Job}
    (hsplit : s.jobs = front ++ j :: behind) (hi : Inv s) (hfits : NoOverflow s)
    (hstay : j ∈ t.jobs) (h : Moves .mlfq s a t)
    (hnew : ∀ sub wake, a = .enqueue sub wake → p sub.id = false) :
    ∃ front' behind', t.jobs = front' ++ j :: behind' ∧
      spent p (taken .mlfq s a) + Budget p j front' behind' t.workers
        ≤ Budget p j front behind s.workers := by
  -- what stands in the deque is as it was
  have hsame : ∀ {u : State n}, u.jobs = s.jobs →
      tally (share p j) u.workers ≤ tally (share p j) s.workers →
      ∃ front' behind', u.jobs = front' ++ j :: behind' ∧
        spent p none + Budget p j front' behind' u.workers ≤ Budget p j front behind s.workers := by
    intro u hjobs htally
    refine ⟨front, behind, hjobs.trans hsplit, ?_⟩
    rw [Budget, Budget, spent, Option.toList_none, List.countP_nil]
    omega
  cases h with
  | takes w job rest hw hg =>
      rw [taken, if_pos hw, hg]
      exact bypass_takes hsplit hi hfits hstay hw hg
  | blocks w hw hj hs | departs w hw hj hs =>
      rw [hj] at hsplit
      exact absurd hsplit (by simp only [List.nil_eq, List.append_eq_nil_iff, reduceCtorEq,
        and_false, not_false_eq_true])
  | enqueues sub wake ws hnew' hwake =>
      refine ⟨front, behind ++ [sub.job], bypass_arrives hsplit, ?_⟩
      have hid : p sub.job.id = false := hnew sub wake rfl
      have htally := tally_notifyOne (f := share p j) rfl hwake
      rw [Budget, Budget, weigh_append, weigh_cons, weigh_nil, hid]
      simp only [taken, spent, Option.toList_none, List.countP_nil, Bool.false_eq_true, if_false]
      omega
  | requeues w job wake ws hw hwake =>
      -- the job brings back to the deque what the worker held
      refine ⟨front, behind ++ [_], bypass_arrives hsplit, ?_⟩
      have htally := tally_update (share p j) s.workers w .atLoopHead
      have hwoken := tally_notifyOne (f := share p j) rfl hwake
      rw [hw] at htally
      have hfit : Fits (job.elapsedBursts + 1) := hfits.2 w _ (by rw [hw]; rfl)
      have hgap : gap j (demote job) = comingBack j (.requeueing job) := by
        simp only [gap, comingBack, level, demote, int32_of_fits hfit]
        congr 1
        omega
      rw [Budget, Budget, weigh_append, weigh_cons, weigh_nil, hgap, demote_id]
      simp only [taken, spent, Option.toList_none, List.countP_nil]
      simp only [share, Worker.job?, setWorker, comingBack] at htally hwoken ⊢
      omega
  | preempts w job res pid uniqueId hw hp =>
      exact hsame rfl (Nat.le_of_eq (tally_update_same hw rfl))
  | enters w hw | leaves w hw | wakes w hw | finishes w job res pid uniqueId hw
    | files w job res hw | reports w job res hw | passes w job res hw | breaks w job res q hw
    | pays w job res q hw | ends w job hw =>
      -- none of these brings anything back
      exact hsame rfl (tally_share (Nat.le_trans (Nat.le_of_eq (share_idle rfl)) (Nat.zero_le _)))
  | clears hs | joins hs hw => exact hsame rfl (Nat.le_refl _)
  | stops hs => exact hsame rfl (Nat.le_of_eq (tally_notifyAll rfl s.workers))

/-! ## Whole runs -/

/-- What a run takes while `j` stays is spent from the budget. -/
theorem served_le_budget {p : Nat → Bool} {j : Job} {actions : List (Action n)}
    {front behind : List Job} (hi : Inv s) (hsplit : s.jobs = front ++ j :: behind)
    (hstay : Lts.Always (step .mlfq) (fun s => j ∈ s.jobs) s actions)
    (hfits : Lts.Always (step .mlfq) NoOverflow s actions)
    (hnew : Lts.Along (step .mlfq) (fun _ a => ∀ sub wake, a = .enqueue sub wake →
      p sub.id = false) s actions) :
    (served .mlfq s actions).countP (fun job => p job.id) ≤ Budget p j front behind s.workers := by
  induction actions generalizing s front behind with
  | nil => exact Nat.zero_le _
  | cons a actions ih =>
      cases hs : step .mlfq s a with
      | none =>
          rw [served, Lts.trace, hs]
          exact Nat.zero_le _
      | some t =>
          have hstay' := hstay.2 t hs
          have hj : j ∈ t.jobs := Lts.always_start (P := fun s : State n => j ∈ s.jobs) hstay'
          rcases bypass_moves hsplit hi (Lts.always_start hfits) hj (moves_of_step hs)
            (hnew t hs).1 with ⟨front', behind', hsplit', hspent⟩
          have hrest := ih (inv_step hi hs) hsplit' hstay' (hfits.2 t hs) (hnew t hs).2
          rw [served, Lts.trace_cons hs, List.countP_append]
          exact Nat.le_trans (Nat.add_le_add_left hrest _) hspent

theorem mem_of_taken {job : Job} (h : taken .mlfq s a = some job) : job ∈ s.jobs := by
  cases a with
  | dequeue w =>
      simp only [taken, Option.ite_none_right_eq_some, Option.map_eq_some_iff] at h
      rcases h with ⟨-, ⟨job', rest⟩, hg, rfl⟩
      exact (Scheduler.getNextJob_perm hg).mem_iff.mpr List.mem_cons_self
  | _ => exact absurd h (by simp only [taken, reduceCtorEq, not_false_eq_true])

/-- A job that is not in the deque is not taken. -/
theorem served_absent {i : Nat} {actions : List (Action n)}
    (h : Lts.Along (step .mlfq) (fun s _ => ∀ job ∈ s.jobs, job.id ≠ i) s actions) :
    ((served .mlfq s actions).map Job.id).count i = 0 := by
  induction actions generalizing s with
  | nil => rfl
  | cons a actions ih =>
      cases hs : step .mlfq s a with
      | none =>
          rw [served, Lts.trace, hs]
          rfl
      | some t =>
          rw [served, Lts.trace_cons hs, List.map_append, List.count_append]
          have hnone : ((taken .mlfq s a).toList.map Job.id).count i = 0 := by
            refine List.count_eq_zero.mpr fun hmem => ?_
            rcases List.mem_map.mp hmem with ⟨job, hjob, hid⟩
            exact (h t hs).1 job (mem_of_taken (Option.mem_toList.mp hjob)) hid
          rw [hnone, Nat.zero_add]
          exact ih (h t hs).2

/-- A job stays in the deque until it is taken. -/
theorem stays_moves {sched : Scheduler} {j : Job} (h : Moves sched s a t) (hj : j ∈ s.jobs)
    (ha : taken sched s a ≠ some j) : j ∈ t.jobs := by
  cases h with
  | takes w job rest hw hg =>
      rw [taken, if_pos hw, hg] at ha
      refine (List.mem_cons.mp ((Scheduler.getNextJob_perm hg).mem_iff.mp hj)).resolve_left ?_
      rintro rfl
      exact ha rfl
  | enqueues sub wake ws hnew hwake | requeues w job wake ws hw hwake =>
      exact List.mem_append_left _ hj
  | _ => exact hj

theorem always_of_not_served {j : Job} {actions : List (Action n)} (hj : j ∈ s.jobs)
    (h : j.id ∉ (served .mlfq s actions).map Job.id) :
    Lts.Always (step .mlfq) (fun s => j ∈ s.jobs) s actions := by
  induction actions generalizing s with
  | nil => exact hj
  | cons a actions ih =>
      refine ⟨hj, fun t hs => ?_⟩
      rw [served, Lts.trace_cons hs, List.map_append, List.mem_append, not_or] at h
      refine ih (stays_moves (moves_of_step hs) hj fun ha => h.1 ?_) h.2
      rw [ha]
      exact List.mem_map.mpr ⟨j, List.mem_singleton_self j, rfl⟩

/-! ## The bound -/

theorem weigh_absent {p : Nat → Bool} {f : Job → Nat} {jobs : List Job}
    (h : ∀ job ∈ jobs, p job.id = false) : weigh p f jobs = 0 := by
  rw [weigh, List.sum_eq_zero]
  intro x hx
  rcases List.mem_map.mp hx with ⟨job, hjob, rfl⟩
  rw [if_neg (Bool.eq_false_iff.mp (h job hjob))]

theorem weigh_congr {p : Nat → Bool} {f g : Job → Nat} {jobs : List Job}
    (h : ∀ job ∈ jobs, f job = g job) : weigh p f jobs = weigh p g jobs := by
  rw [weigh, weigh, List.map_congr_left fun job hjob => by rw [h job hjob]]

theorem weigh_single {f : Job → Nat} {jobs : List Job} {i : Job}
    (hnodup : (jobs.map Job.id).Nodup) (hi : i ∈ jobs) : weigh (· == i.id) f jobs = f i := by
  rcases List.append_of_mem hi with ⟨pre, post, rfl⟩
  rw [List.map_append, List.map_cons, List.nodup_middle, List.nodup_cons, ← List.map_append]
    at hnodup
  have hother : ∀ job ∈ pre ++ post, (job.id == i.id) = false := fun job hjob =>
    beq_false_of_ne fun he => hnodup.1 (List.mem_map.mpr ⟨job, hjob, he⟩)
  rw [weigh_append, weigh_cons, if_pos (beq_self_eq_true i.id),
    weigh_absent fun job hjob => hother job (List.mem_append_left post hjob),
    weigh_absent fun job hjob => hother job (List.mem_append_right pre hjob)]
  omega

/-- The budget of a deque is the sum of the bounds of its jobs, besides what
    comes back. -/
theorem budget_eq {p : Nat → Bool} {j : Job} {front behind : List Job} (hi : Inv s)
    (hsplit : s.jobs = front ++ j :: behind) : Budget p j front behind s.workers
      = weigh p (bypass s.jobs j) s.jobs + tally (share p j) s.workers := by
  have hnodup := inv_queue_nodup hi
  rw [hsplit] at hnodup ⊢
  have hjobs : (front ++ j :: behind).Nodup := hnodup.of_map Job.id
  have hout := (List.nodup_cons.mp (List.nodup_middle.mp hjobs)).1
  have htake : (front ++ j :: behind).takeWhile (· ≠ j) = front := by
    rw [List.takeWhile_append_of_pos, List.takeWhile_cons_of_neg, List.append_nil]
    · simp only [ne_eq, not_true_eq_false, decide_false, Bool.false_eq_true, not_false_eq_true]
    · exact fun y hy => decide_eq_true fun he => hout (List.mem_append_left _ (he ▸ hy))
  have hfront : ∀ y ∈ front, inFront j y = bypass (front ++ j :: behind) j y := by
    intro y hy
    simp only [inFront, bypass, htake, hy, and_true]
  have hbehind : ∀ y ∈ j :: behind, gap j y = bypass (front ++ j :: behind) j y := by
    intro y hy
    have hy' : y ∉ front := fun hmem =>
      List.disjoint_of_nodup_append hjobs hmem hy
    simp only [bypass, htake, hy', and_false, if_false, Nat.add_zero]
  have hself : gap j j = 0 := by
    unfold gap
    omega
  rw [Budget, weigh_append, weigh_congr hfront, ← weigh_congr hbehind, weigh_cons, hself, ite_self,
    Nat.zero_add]

/-- No worker holds a job that is in the deque. -/
theorem share_queued {i j : Job} (hi : Inv s) (hmem : i ∈ s.jobs) :
    tally (share (· == i.id) j) s.workers = 0 := by
  have hpos : 0 < (s.jobs.map Job.id).count i.id :=
    List.count_pos_iff.mpr (List.mem_map.mpr ⟨i, hmem, rfl⟩)
  have hone := inv_place_one hi (genuine_accepted (hi.queued i hmem))
  refine Finset.sum_eq_zero fun w _ => ?_
  unfold share
  split
  · rename_i job hjob
    rw [if_neg]
    intro hid
    have hholds : holding i.id (s.workers w) = 1 := by
      simp only [holding, stage, hjob, eq_of_beq hid, if_true]
    have hle := Threads.le_tally (holding i.id) s.workers w
    unfold holders at hone
    omega
  · rfl

/-- When all jobs count, every worker's share does. -/
theorem share_all (j : Job) (v : Worker) : share (fun _ => true) j v = comingBack j v := by
  cases v <;> rfl

/-- No job overtakes `j` more often than its bound says. -/
structure BoundedBypass (s : State n) (j : Job) (actions : List (Action n)) : Prop where
  /-- While `j` stays in the deque, another job is dequeued as often as the
      deque says in which the two are first together. -/
  each : Lts.Always (step .mlfq) (fun s => j ∈ s.jobs) s actions →
    ∀ (i : Job) (pre post : List (Action n)) (m : State n), i.id ≠ j.id →
      actions = pre ++ post → Lts.run (step .mlfq) s pre = some m →
      Lts.Along (step .mlfq) (fun s _ => ∀ job ∈ s.jobs, job.id ≠ i.id) s pre → i ∈ m.jobs →
      ((served .mlfq s actions).map Job.id).count i.id ≤ bypass m.jobs j i
  /-- A job that is never in the deque is not dequeued. -/
  apart : ∀ i, Lts.Along (step .mlfq) (fun s _ => ∀ job ∈ s.jobs, job.id ≠ i) s actions →
    ((served .mlfq s actions).map Job.id).count i = 0
  /-- With no arrivals, as many turns as all the bounds together are too few
      for `j` to be left out of one more. -/
  total : j ∈ s.jobs → (∀ a ∈ actions, ∀ sub wake, a ≠ .enqueue sub wake) →
    (s.jobs.map (bypass s.jobs j)).sum + tally (comingBack j) s.workers
        < (served .mlfq s actions).length →
      j.id ∈ (served .mlfq s actions).map Job.id

/-- No client hands over a job with the id of an accepted one. -/
theorem along_not_enqueued {i : Nat} {actions : List (Action n)}
    (hacc : i ∈ s.accepted.map Job.id) :
    Lts.Along (step .mlfq) (fun _ a => ∀ sub wake, a = .enqueue sub wake →
      (sub.id == i) = false) s actions := by
  refine Lts.along_of_along (I := fun s => i ∈ s.accepted.map Job.id) (G := fun _ _ => True)
    (fun s a t hs _ h => ?_) (fun s a t hs _ h => ?_) hacc
    (Lts.along_of_forall fun _ _ _ => trivial)
  · cases moves_of_step h with
    | enqueues sub wake ws hnew hwake =>
        rw [List.map_append]
        exact List.mem_append_left _ hs
    | _ => exact hs
  · rintro sub wake rfl
    cases moves_of_step h with
    | enqueues sub wake ws hnew hwake =>
        rcases List.mem_map.mp hs with ⟨x, hx, rfl⟩
        exact beq_false_of_ne (Ne.symm ((isNew_iff sub s.accepted).mp hnew x hx).1)

/-- In every run of `MLFQScheduler` in which neither a level nor a counter
    overflows, every job is passed over as often as that. -/
theorem bypass_bounded (before : List (Action n)) {actions : List (Action n)}
    (h : Lts.run (step .mlfq) (init n) before = some s)
    (hfits : Lts.Always (step .mlfq) NoOverflow s actions) (j : Job) :
    BoundedBypass s j actions where
  each hstay i pre post m hne hsplit hr habsent hmem := by
    subst hsplit
    have hi : Inv m := Lts.run_invariant (fun _ _ _ hi hs => inv_step hi hs) (inv_run h) hr
    have hstay' := Lts.always_append hr hstay
    have hj : j ∈ m.jobs := Lts.always_start (P := fun s : State n => j ∈ s.jobs) hstay'
    rcases List.append_of_mem hj with ⟨front, behind, hjobs⟩
    have hacc := genuine_accepted (hi.queued i hmem)
    have hbudget := served_le_budget (p := (· == i.id)) hi hjobs hstay'
      (Lts.always_append hr hfits) (along_not_enqueued hacc)
    rw [budget_eq hi hjobs, weigh_single (inv_queue_nodup hi) hmem, share_queued hi hmem,
      Nat.add_zero] at hbudget
    have hcount : ∀ jobs : List Job, (jobs.map Job.id).count i.id
        = jobs.countP fun job => job.id == i.id := fun jobs => by
      rw [List.count, List.countP_map]
      rfl
    have habsent := served_absent habsent
    rw [served, Lts.trace_append hr, List.map_append, List.count_append, ← served, habsent,
      Nat.zero_add, hcount]
    exact hbudget
  apart i habsent := served_absent habsent
  total hj hclosed hmany := by
    by_contra hout
    have hi := inv_run h
    rcases List.append_of_mem hj with ⟨front, behind, hjobs⟩
    have hbudget := served_le_budget (p := fun _ => true) hi hjobs (always_of_not_served hj hout)
      hfits (Lts.along_of_forall fun a ha _ sub wake he => absurd he (hclosed a ha sub wake))
    have hshare : tally (share (fun _ => true) j) s.workers = tally (comingBack j) s.workers :=
      Finset.sum_congr rfl fun w _ => share_all j (s.workers w)
    have hweigh : weigh (fun _ => true) (bypass s.jobs j) s.jobs
        = (s.jobs.map (bypass s.jobs j)).sum := rfl
    rw [budget_eq hi hjobs, hweigh, hshare, List.countP_true] at hbudget
    omega

/-- A worker takes the same job twice. -/
def overtaking (w : Fin n) : List (Action n) :=
  [.testRunning w, .dequeue w, .execute w { preempted := true } 100 1, .requeue w none,
    .testRunning w, .dequeue w, .execute w { preempted := true } 100 1, .requeue w none]

/-- The first of two jobs starts two levels above the second one and overtakes
    it twice, as its bound says. Back on its level, it stands behind. -/
theorem bypass_bounded_two : ∃ s : State 1, ∃ j i : Job, s.jobs = [i, j] ∧ i.id ≠ j.id ∧
    bypass s.jobs j i = 2 ∧ (served .mlfq s (overtaking 0)).map Job.id = [1, 1] ∧
    BoundedBypass s j (overtaking 0) := by
  let a : Submission := { id := 1, cmd := {}, resultPromise := none }
  let b : Submission := { id := 2, cmd := {}, resultPromise := none, priority := 2 }
  refine ⟨_, b.job, a.job, rfl, by decide, by decide, by decide,
    bypass_bounded [.enqueue a none, .enqueue b none] rfl ?_ b.job⟩
  decide

end Pool

end Isolyx
