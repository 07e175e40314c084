import Isolyx.Library.Feedback
import Isolyx.Theory.Levels

/-!
# Multi-Level Feedback on Any Batch

What `MLFQScheduler` makes of a batch of any priorities on one worker, as long
as no sum of a priority and a count of bursts overflows. Its level is that sum,
so a job enters at its priority and sinks by one level with each burst. The
levels are served one after the other, and on each of them first the jobs whose
priority it is, then those that sank to it, the ones that sank least first.

This gives the schedule in closed form. On the level `low + k` stand, for
`j = 0, 1, .., k`, the jobs of priority `low + k - j` that need more than `j`
bursts, each of these groups in the order of submission (`schedule_feedback`).
For a flat batch every level has one group, which is round robin; priorities
further apart than the bursts of any job give one priority after the other.

## Main definitions

* `group`: The jobs of one priority that have sunk to a level.
* `feedback`: The schedule, level by level.

## Theorems

* `sunk_groups`: What has come back to a level, by priorities.
* `schedule_feedback`: The schedule of multi-level feedback in closed form.
* `mlfq_by_levels`: The same for runs of the pool.
-/

namespace Isolyx

namespace Pool

open MLFQScheduler (level)
open Service (Serves Feedback sunk)

variable {d : Nat → Nat}

theorem feedback_mlfq (d : Nat → Nat) : Feedback Scheduler.mlfq.getNextJob (resubmitted d) level
    (Levelled d) where
  isSome _ hq := Scheduler.mlfq.getNextJob_isSome hq
  least _ _ _ hi hpick := Scheduler.mlfq_getNextJob (fun y hy => (hi y hy).least) hpick
  rises _ _ hi hback := levelled_resubmitted hi hback

/-- The jobs that stand on level `low + k` after `j` bursts. -/
def group (d : Nat → Nat) (low : Int) (batch : List Job) (k j : Nat) : List Job :=
  (batch.filter fun job => job.priority = low + k - j ∧ j < d job.id).map fun job =>
    { job with elapsedBursts := j }

/-- Level by level, and on each of them group by group. -/
def feedback (d : Nat → Nat) (low : Int) (n : Nat) (batch : List Job) : List Nat :=
  (List.range n).flatMap fun k => (List.range (k + 1)).flatMap fun j =>
    (group d low batch k j).map Job.id

theorem resubmitted_after (d : Nat → Nat) (job : Job) (j : Nat) :
    resubmitted d { job with elapsedBursts := j }
      = if j + 1 < d job.id then some { job with elapsedBursts := (j + 1 : Nat) } else none := by
  rw [resubmitted]
  by_cases hmore : j + 1 < d job.id
  · rw [if_pos hmore, if_pos (show (j : Int) + 1 < d job.id by omega)]
    rfl
  · rw [if_neg hmore, if_neg (show ¬ (j : Int) + 1 < d job.id by omega)]

/-- After one more burst, those that need another one stand one level higher. -/
theorem filterMap_group (low : Int) (batch : List Job) (k j : Nat) :
    (group d low batch k j).filterMap (resubmitted d) = group d low batch (k + 1) (j + 1) := by
  rw [group, group, List.filterMap_map, ← List.filterMap_eq_map', List.filterMap_filter,
    List.filterMap_filter]
  refine List.filterMap_congr fun job _ => ?_
  have hlevel : low + k - j = low + (k + 1 : Nat) - (j + 1 : Nat) := by omega
  rw [← hlevel, Function.comp_apply, resubmitted_after]
  simp only [decide_eq_true_eq]
  by_cases hmore : j + 1 < d job.id
  · have hhere : j < d job.id := by omega
    simp only [hmore, hhere, and_true, if_true]
  · simp only [hmore, and_false, if_false, ite_self]

/-- The jobs that were submitted for a level. -/
theorem group_zero {low : Int} {batch : List Job} (hfresh : ∀ job ∈ batch, job.elapsedBursts = 0)
    (hd : ∀ job ∈ batch, 0 < d job.id) (k : Nat) :
    group d low batch k 0 = batch.filter fun job => level job = low + k := by
  rw [group]
  have hfilter : (batch.filter fun job => job.priority = low + k - (0 : Nat) ∧ 0 < d job.id)
      = batch.filter fun job => level job = low + k := by
    refine List.filter_congr fun job hjob => decide_eq_decide.mpr ?_
    have hzero := hfresh job hjob
    have hpos := hd job hjob
    simp only [level]
    omega
  rw [hfilter]
  refine (List.map_congr_left fun job hjob => ?_).trans (List.map_id _)
  have hzero := hfresh job (List.mem_filter.mp hjob).1
  rw [id, Nat.cast_zero, ← hzero]

theorem sunk_groups (low : Int) (batch : List Job) (k : Nat) :
    sunk (resubmitted d) (fun k => group d low batch k 0) k
      = (List.range k).flatMap fun j => group d low batch k (j + 1) := by
  induction k with
  | zero => rfl
  | succ k ih =>
      have hall : group d low batch k 0 ++ (List.range k).flatMap
          (fun j => group d low batch k (j + 1))
            = (List.range (k + 1)).flatMap fun j => group d low batch k j := by
        rw [List.range_succ_eq_map, List.flatMap_cons, List.flatMap_map]
      rw [sunk, ih, hall, List.filterMap_flatMap]
      exact List.flatMap_congr fun j _ => filterMap_group low batch k j

/-- The schedule of a batch that no level overflows on, from a level that is at
    most the least priority to one that no job sinks to. -/
theorem schedule_feedback {batch : List Job} {low : Int} {n : Nat}
    (hfresh : ∀ job ∈ batch, job.elapsedBursts = 0) (hd : ∀ job ∈ batch, 0 < d job.id)
    (hlev : ∀ job ∈ batch, Levelled d job) (hlow : ∀ job ∈ batch, low ≤ job.priority)
    (hn : ∀ job ∈ batch, job.priority + d job.id ≤ low + n) :
    schedule .mlfq d batch = feedback d low n batch := by
  have hserves := Service.serves_levels (feedback_mlfq d) low (q := batch) hlev
    (fun job hjob => by
      have := hlow job hjob
      rw [level, hfresh job hjob]
      omega)
    (fun k => group_zero hfresh hd k) n
  -- nobody is left above the last level
  have hempty : batch.filter (fun job => low + n ≤ level job) ++
      sunk (resubmitted d) (fun k => group d low batch k 0) n = [] := by
    rw [sunk_groups, List.append_eq_nil_iff, List.filter_eq_nil_iff, List.flatMap_eq_nil_iff]
    refine ⟨fun job hjob => ?_, fun j _ => ?_⟩
    · have hpos := hd job hjob
      have hend := hn job hjob
      rw [decide_eq_true_iff, level, hfresh job hjob]
      omega
    · rw [group, List.map_eq_nil_iff, List.filter_eq_nil_iff]
      intro job hjob
      have hend := hn job hjob
      rw [decide_eq_true_iff]
      omega
  rw [hempty] at hserves
  rw [schedule, hserves.unique (getNextJob_nil .mlfq) (serves_schedule .mlfq hfresh hd), feedback,
    List.map_flatMap]
  refine List.flatMap_congr fun k _ => ?_
  rw [sunk_groups, List.range_succ_eq_map, List.flatMap_cons, List.flatMap_map, List.map_append,
    List.map_flatMap]

/-- A run of `MLFQScheduler` over a batch of priorities and demands whose sums
    fit dequeues level by level: on level `low + k`, for `j` from zero to `k`, the
    jobs of priority `low + k - j` that need more than `j` bursts, in the order
    of submission. -/
theorem mlfq_by_levels (r : BatchRun .mlfq d) (low : Int) (n : Nat)
    (hd : ∀ job ∈ r.batch, 0 < d job.id)
    (hfits : ∀ job ∈ r.batch, Fits job.priority ∧ Fits (job.priority + (d job.id - 1)))
    (hlow : ∀ job ∈ r.batch, low ≤ job.priority)
    (hn : ∀ job ∈ r.batch, job.priority + d job.id ≤ low + n) :
    r.order <+: feedback d low n r.batch ∧ (r.Finished → r.order = feedback d low n r.batch) := by
  have hlev : ∀ job ∈ r.batch, Levelled d job := by
    intro job hjob
    refine ⟨?_, (hfits job hjob).2⟩
    rw [level, r.fresh job hjob, Int.add_zero]
    exact (hfits job hjob).1
  have hschedule := schedule_feedback r.fresh hd hlev hlow hn
  exact ⟨hschedule ▸ r.order_isPrefix hd,
    fun hfin => (r.order_eq_schedule hd hfin).trans hschedule⟩

/-- The first job sinks to the level of the second, and stands behind it there. -/
theorem mlfq_by_levels_two : ∃ r : BatchRun .mlfq fun i => 4 - i,
    r.Finished ∧ r.batch.map Job.id = [1, 2] ∧ r.order = [1, 2, 1, 2, 1] := by
  let a : Submission := { id := 1, cmd := {}, resultPromise := none }
  let b : Submission := { id := 2, cmd := {}, resultPromise := none, priority := 1 }
  rcases exists_finished .mlfq (fun i => 4 - i) [a, b]
    (List.pairwise_pair.mpr ⟨by decide, .inl rfl⟩) with ⟨r, hbatch, hfin⟩
  have horder := (mlfq_by_levels r 0 3 (by rw [hbatch]; decide)
    (by
      rw [hbatch]
      simp only [Fits]
      decide)
    (by rw [hbatch]; decide) (by rw [hbatch]; decide)).2 hfin
  refine ⟨r, hfin, by rw [hbatch]; rfl, ?_⟩
  rw [horder, hbatch]
  decide

end Pool

end Isolyx
