import Isolyx.Core.Scheduler

/-!
# The Sums that MLFQ Compares

A job competes at the sum of its priority and its bursts, an `int` like the two
of them. Which job is taken out is the least by the sums as they are computed
(`takeAt_minElement`), and these are the sums of integers as long as none of
them is too great; too small they cannot be, since bursts are counted from 0.

The search compares every job of the deque with some other one, unless the job
is alone, so that one sum out of range is enough for a comparison that
overflows. A job on the last level there is wraps around to the first one when
it is demoted.

## Main definitions

* `Chooses`: What the scheduler ought to do.
* `InRange`: The deques for which it does.

## Theorems

* `key_demote`: Where a demotion leads.
* `chooses_iff`: The scheduler does what it ought to exactly in range.
-/

namespace Isolyx

namespace MLFQScheduler

open Select (FirstLeast comparisons)

/-- No comparison overflows, the first job of the least level is taken out and
    the others keep their order, and a demotion leads to a greater key. -/
structure Chooses (jobs : List Job) (job : Job) (rest : List Job) : Prop where
  exact : ∀ p ∈ comparisons (fun a b => decide (key a < key b)) jobs,
    Fits (level p.1) ∧ Fits (level p.2)
  least : ∃ pre post, jobs = pre ++ job :: post ∧ rest = pre ++ post ∧ FirstLeast level pre job post
  demotes : ∀ x ∈ jobs, Fits (x.elapsedBursts + 1) ∧ key x < key (demote x)

/-- A job that is alone is compared to none; otherwise all levels are in range,
    and every job has one more burst and one more level to come. -/
structure InRange (jobs : List Job) : Prop where
  levels : jobs.length = 1 ∨ ∀ x ∈ jobs, level x ≤ 2147483647
  next : ∀ x ∈ jobs, x.elapsedBursts < 2147483647 ∧ level x ≠ 2147483647

/-- A job as it may be in the deque: its priority is an `int`, and so is the
    number of its bursts, which were counted. -/
structure Counted (job : Job) : Prop where
  priority : Fits job.priority
  bursts : 0 ≤ job.elapsedBursts ∧ Fits job.elapsedBursts

theorem fits_level {job : Job} (h : Counted job) : Fits (level job) ↔ level job ≤ 2147483647 := by
  have hp := h.priority
  have hb := h.bursts
  unfold Fits level at *
  omega

theorem int32_eq (x : Int) :
    int32 x = if x % 4294967296 < 2147483648 then x % 4294967296
      else x % 4294967296 - 4294967296 := by
  rw [int32, show 2 ^ 32 = 4294967296 from rfl, Int.bmod]
  rfl

/-- A demotion leads to a greater key from every level but the last. -/
theorem key_demote {job : Job} (h : Counted job) :
    Fits (job.elapsedBursts + 1) ∧ key job < key (demote job) ↔
      job.elapsedBursts < 2147483647 ∧ level job ≠ 2147483647 := by
  have hp := h.priority
  have hb := h.bursts
  have hfits : Fits (job.elapsedBursts + 1) ↔ job.elapsedBursts < 2147483647 := by
    unfold Fits at *
    omega
  rw [hfits]
  refine and_congr_right fun hlt => ?_
  have hnext : int32 (job.elapsedBursts + 1) = job.elapsedBursts + 1 :=
    int32_of_fits (hfits.mpr hlt)
  simp only [key, demote, hnext, level, int32_eq]
  unfold Fits at hp hb
  split_ifs <;> omega

/-- A job that is alone is taken out, whatever its level. -/
theorem firstLeast_singleton {jobs rest : List Job} {job : Job} (hlen : jobs.length = 1)
    (h : Scheduler.mlfq.getNextJob jobs = some (job, rest)) :
    ∃ pre post, jobs = pre ++ job :: post ∧ rest = pre ++ post ∧ FirstLeast level pre job post := by
  rcases List.length_eq_one_iff.mp hlen with ⟨x, rfl⟩
  have hx : some (x, ([] : List Job)) = some (job, rest) := h
  rw [Option.some.injEq, Prod.mk.injEq] at hx
  refine ⟨[], [], hx.1 ▸ rfl, hx.2.symm, ?_, ?_⟩
  · exact fun y hy => absurd hy List.not_mem_nil
  · exact fun y hy => absurd hy List.not_mem_nil

/-- The scheduler takes a job out of every deque that is not empty, and does
    what it ought to exactly if the deque is in range. -/
theorem chooses_iff {jobs : List Job} (hne : jobs ≠ []) (hjobs : ∀ x ∈ jobs, Counted x) :
    ∃ job rest, Scheduler.mlfq.getNextJob jobs = some (job, rest) ∧
      (Chooses jobs job rest ↔ InRange jobs) := by
  rcases Option.isSome_iff_exists.mp (Scheduler.getNextJob_isSome .mlfq hne) with ⟨⟨job, rest⟩, h⟩
  have hexact := Select.forall_comparisons (fun a b => decide (key a < key b))
    (P := fun x => Fits (level x)) hne
  have hlevels : (jobs.length = 1 ∨ ∀ x ∈ jobs, Fits (level x)) ↔
      (jobs.length = 1 ∨ ∀ x ∈ jobs, level x ≤ 2147483647) :=
    or_congr_right (forall₂_congr fun x hx => fits_level (hjobs x hx))
  have hdemotes : (∀ x ∈ jobs, Fits (x.elapsedBursts + 1) ∧ key x < key (demote x)) ↔
      ∀ x ∈ jobs, x.elapsedBursts < 2147483647 ∧ level x ≠ 2147483647 :=
    forall₂_congr fun x hx => key_demote (hjobs x hx)
  refine ⟨job, rest, h, fun hc => ⟨?_, hdemotes.mp hc.demotes⟩, fun hr => ⟨?_, ?_, ?_⟩⟩
  · exact hlevels.mp (hexact.mp hc.exact)
  · exact hexact.mpr (hlevels.mpr hr.levels)
  · rcases hlevels.mpr hr.levels with hlen | hfits
    · exact firstLeast_singleton hlen h
    · exact Scheduler.mlfq_getNextJob hfits h
  · exact hdemotes.mpr hr.next

/-- A job with a priority, after some bursts. -/
def jobAt (id : Nat) (priority elapsedBursts : Int) : Job where
  id := id
  cmd := {}
  resultPromise := none
  priority := priority
  elapsedBursts := elapsedBursts

/-- One of two jobs of a priority was demoted. -/
theorem chooses_pair :
    ∃ rest, Scheduler.mlfq.getNextJob [jobAt 1 5 1, jobAt 2 5 0] = some (jobAt 2 5 0, rest) ∧
      Chooses [jobAt 1 5 1, jobAt 2 5 0] (jobAt 2 5 0) rest := by
  have hcounted : ∀ x ∈ [jobAt 1 5 1, jobAt 2 5 0], Counted x :=
    List.forall_mem_cons.mpr ⟨⟨by decide, by decide⟩, List.forall_mem_singleton.mpr
      ⟨by decide, by decide⟩⟩
  have hrange : InRange [jobAt 1 5 1, jobAt 2 5 0] := ⟨.inr (by decide), by decide⟩
  rcases chooses_iff (List.cons_ne_nil _ _) hcounted with ⟨job, rest, h, hiff⟩
  have hnext : Scheduler.mlfq.getNextJob [jobAt 1 5 1, jobAt 2 5 0] =
      some (jobAt 2 5 0, [jobAt 1 5 1]) := by decide
  rw [hnext, Option.some.injEq, Prod.mk.injEq] at h
  rw [← h.1] at hiff
  exact ⟨rest, h.2 ▸ hnext, hiff.mpr hrange⟩

/-- The job of the highest number, demoted once, is taken out before one of the
    lowest. -/
theorem demoted_wins :
    Scheduler.mlfq.getNextJob [jobAt 1 0 0, jobAt 2 2147483647 1] =
        some (jobAt 2 2147483647 1, [jobAt 1 0 0]) ∧
      level (jobAt 1 0 0) < level (jobAt 2 2147483647 1) ∧
      ¬ Chooses [jobAt 1 0 0, jobAt 2 2147483647 1] (jobAt 2 2147483647 1) [jobAt 1 0 0] := by
  refine ⟨by decide, by decide, fun h => ?_⟩
  exact absurd (h.exact (jobAt 2 2147483647 1, jobAt 1 0 0) (by decide)).1 (by decide)

end MLFQScheduler

end Isolyx
