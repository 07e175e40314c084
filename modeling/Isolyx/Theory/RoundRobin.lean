import Isolyx.Library.Rounds
import Isolyx.Library.Split
import Isolyx.Theory.Batch

/-!
# Round Robin Completion Times

When `RoundRobinScheduler` finishes the jobs of a batch on one worker. The
deque is a queue and a preempted job goes to its end, so the schedule consists
of rounds in the order of enqueue: in round `r` every job that needs more than
`r` bursts has one (`schedule_roundRobin`).

In front of a job's last burst stand the rounds before it and the jobs of its
own round that were enqueued earlier. A job that was enqueued later has had one
burst less by then, if it needs that many at all, which is why the two sums of
`lastDequeue` differ.

## Main definitions

* `lastDequeue`: The number of the dequeue with which a job's last burst begins.
* `LastAt`: Where an id comes for the last time.

## Theorems

* `schedule_roundRobin`: The schedule is a number of rounds.
* `completion_times`: When jobs finish, and how their bursts alternate.
-/

namespace Isolyx

namespace Pool

open Rounds (rounds)
open Service (Serves)

variable {d : Nat → Nat}

/-- The jobs that take part in a round. -/
def level (d : Nat → Nat) (batch : List Job) (r : Nat) : List Job :=
  (batch.filter fun job => r < d job.id).map fun job => { job with elapsedBursts := r }

theorem level_succ (d : Nat → Nat) (batch : List Job) (r : Nat) :
    (level d batch r).filterMap (resubmitted d) = level d batch (r + 1) := by
  induction batch with
  | nil => rfl
  | cons job batch ih =>
      simp only [level] at ih ⊢
      by_cases hr : r < d job.id
      · rw [List.filter_cons_of_pos (by simpa only [decide_eq_true_eq]), List.map_cons,
          List.filterMap_cons]
        by_cases hgo : r + 1 < d job.id
        · have hback : resubmitted d { job with elapsedBursts := (r : Int) }
              = some { job with elapsedBursts := ((r + 1 : Nat) : Int) } := by
            rw [resubmitted, if_pos (show (r : Int) + 1 < d job.id by exact_mod_cast hgo)]
            rfl
          rw [hback, ih, List.filter_cons_of_pos (by simpa only [decide_eq_true_eq]),
            List.map_cons]
        · have hback : resubmitted d { job with elapsedBursts := (r : Int) } = none := by
            rw [resubmitted, if_neg (show ¬ (r : Int) + 1 < d job.id by exact_mod_cast hgo)]
          rw [hback, ih, List.filter_cons_of_neg (by simpa only [decide_eq_true_eq])]
      · rw [List.filter_cons_of_neg (by simpa only [decide_eq_true_eq]), ih,
          List.filter_cons_of_neg (by simp only [decide_eq_true_eq]; omega)]

theorem level_zero {batch : List Job} (hfresh : ∀ job ∈ batch, job.elapsedBursts = 0)
    (hd : ∀ job ∈ batch, 0 < d job.id) : level d batch 0 = batch := by
  have hall : (batch.filter fun job => 0 < d job.id) = batch :=
    List.filter_eq_self.mpr fun job hjob => decide_eq_true (hd job hjob)
  rw [level, hall]
  calc batch.map (fun job => { job with elapsedBursts := ((0 : Nat) : Int) }) = batch.map id :=
        List.map_congr_left fun job hjob => by rw [Int.ofNat_zero, ← hfresh job hjob]; rfl
    _ = batch := List.map_id _

theorem map_id_level (d : Nat → Nat) (batch : List Job) (n : Nat) :
    ((List.range n).flatMap (level d batch)).map Job.id = rounds d (batch.map Job.id) n := by
  rw [rounds, List.map_flatMap]
  congr 1
  funext r
  rw [level, List.map_map, List.filter_map]
  rfl

/-- One round after the other, as many as any job needs bursts. -/
theorem schedule_roundRobin {batch : List Job} (hfresh : ∀ job ∈ batch, job.elapsedBursts = 0)
    (hd : ∀ job ∈ batch, 0 < d job.id) {n : Nat} (hn : ∀ job ∈ batch, d job.id ≤ n) :
    schedule .roundRobin d batch = rounds d (batch.map Job.id) n := by
  have hfront : Scheduler.roundRobin.getNextJob = Service.front := by
    funext jobs
    cases jobs <;> rfl
  have hempty : level d batch n = [] := by
    rw [level, List.map_eq_nil_iff, List.filter_eq_nil_iff]
    intro job hjob
    have := hn job hjob
    simp only [decide_eq_true_eq]
    omega
  have hrounds := Service.serves_rounds (level_succ d batch) n
  rw [level_zero hfresh hd, hempty, ← hfront] at hrounds
  have hall := serves_schedule .roundRobin hfresh hd
  rw [schedule, hrounds.unique (getNextJob_nil .roundRobin) hall, map_id_level]

/-- The number of the dequeue that begins the last burst of a job, which was
    enqueued after the jobs `before` it and before the jobs `after` it. -/
def lastDequeue (d : Nat → Nat) (before : List Job) (job : Job) (after : List Job) : Nat :=
  ((before ++ [job]).map fun m => min (d m.id) (d job.id)).sum
    + (after.map fun m => min (d m.id) (d job.id - 1)).sum

/-- The id comes for the last time as the `k`-th one. -/
def LastAt (order : List Nat) (i k : Nat) : Prop :=
  ∃ front rest, order = front ++ i :: rest ∧ i ∉ rest ∧ front.length + 1 = k

/-- A finished run of `RoundRobinScheduler` over a batch dequeues each job for
    the last time where `lastDequeue` says. In every run, finished or not,
    between two dequeues of a job that follow each other every other job is
    dequeued once if it needs another burst, and not at all if it does not. -/
theorem completion_times (r : BatchRun .roundRobin d) (hd : ∀ job ∈ r.batch, 0 < d job.id) :
    (r.Finished → ∀ before job after, r.batch = before ++ job :: after →
      LastAt r.order job.id (lastDequeue d before job after)) ∧
    ∀ job ∈ r.batch, ∀ other ∈ r.batch, other.id ≠ job.id → ∀ front mid rest,
      r.order = front ++ job.id :: (mid ++ job.id :: rest) → job.id ∉ mid →
      mid.count other.id = if front.count other.id < d other.id then 1 else 0 := by
  -- a number of rounds that is enough for every job
  have hbound : ∀ job ∈ r.batch, d job.id ≤ (r.batch.map fun job => d job.id).sum := fun job hjob =>
    List.single_le_sum (fun _ _ => Nat.zero_le _) _ (List.mem_map.mpr ⟨job, hjob, rfl⟩)
  generalize (r.batch.map fun job => d job.id).sum = n at hbound
  have hschedule := schedule_roundRobin r.fresh hd hbound
  have hnodup := r.ids_nodup
  constructor
  · intro hfin before job after hsplit
    have horder := (r.order_eq_schedule hd hfin).trans hschedule
    have hids : r.batch.map Job.id
        = before.map Job.id ++ job.id :: after.map Job.id := by
      rw [hsplit, List.map_append, List.map_cons]
    have hjob : job ∈ r.batch := hsplit ▸ List.mem_append_right before List.mem_cons_self
    have hmem : job.id ∈ r.batch.map Job.id := List.mem_map.mpr ⟨job, hjob, rfl⟩
    have hcount : r.order.count job.id = d job.id := by
      rw [horder, Rounds.count_rounds d hnodup hmem, Nat.min_eq_left (hbound job hjob)]
    -- the last of its dequeues is the one with all others in front of it
    have hin : job.id ∈ r.order := List.count_pos_iff.mp (hcount ▸ hd job hjob)
    rcases Split.exists_last hin with ⟨front, rest, hlast, hrest⟩
    rw [hlast, List.count_append, List.count_cons_self, List.count_eq_zero.mpr hrest] at hcount
    refine ⟨front, rest, hlast, hrest, ?_⟩
    have hplace := Rounds.last_turn (n := n) hids hnodup
      (by rw [← hlast, horder]) (by omega)
    rw [hplace, lastDequeue, ← List.map_singleton (f := Job.id), ← List.map_append, List.map_map,
      List.map_map]
    rfl
  · intro job hjob other hother hne front mid rest hsplit hmid
    have hprefix : front ++ job.id :: (mid ++ job.id :: rest)
        <+: rounds d (r.batch.map Job.id) n := by
      rw [← hsplit, ← hschedule]
      exact r.order_isPrefix hd
    exact Rounds.between hnodup (List.mem_map.mpr ⟨job, hjob, rfl⟩)
      (List.mem_map.mpr ⟨other, hother, rfl⟩) hne hprefix hmid

/-- A job of one burst, and one of two behind it. -/
theorem completion_times_two : ∃ r : BatchRun .roundRobin (fun i => i),
    r.Finished ∧ LastAt r.order 1 1 ∧ LastAt r.order 2 3 := by
  let a : Submission := { id := 1, cmd := {}, resultPromise := none }
  let b : Submission := { id := 2, cmd := {}, resultPromise := none }
  rcases exists_finished .roundRobin (fun i => i) [a, b]
    (List.pairwise_pair.mpr ⟨by decide, .inl rfl⟩) with ⟨r, hbatch, hfin⟩
  have hd : ∀ job ∈ r.batch, 0 < job.id := by
    rw [hbatch]
    decide
  have htimes := (completion_times r hd).1 hfin
  exact ⟨r, hfin, htimes [] a.job [b.job] hbatch, htimes [a.job] b.job [] hbatch⟩

end Pool

end Isolyx
