import Isolyx.Theory.Batch
import Mathlib.Data.List.Sort

/-!
# Schedulers with Levels

What `MLFQScheduler` and `PriorityScheduler` make of a batch on one worker, in
terms of `RoundRobinScheduler`.

A flat batch starts on one level, and every burst takes a job one level down.
The deque is then sorted at all times, with the jobs that were preempted in
this round behind the others and one level below them, so that the first job of
the least level is the front (`mlfq_front`). Nothing is left of the levels: the
schedule is the one of round robin.

Priorities do not change. The jobs of the highest one are served as if the
others were not there, since taking a job from the middle of the deque and
putting it back at its end moves nothing past another job (`serves_top`). When
they are finished the next priority has its turn.

## Main definitions

* `Banded`: The deque of a flat batch under `MLFQScheduler`.
* `priorities`: The priorities of a batch, in descending order.
* `ofPriority`: The jobs of one priority.

## Theorems

* `schedule_mlfq`: On a flat batch, multi-level feedback is round robin.
* `mlfq_refines_roundRobin`: The same for runs of the pool.
* `schedule_priority`: Priorities one after the other, each round robin.
* `priority_by_levels`: The same for runs of the pool.
-/

namespace Isolyx

namespace Pool

open MLFQScheduler (level)
open Service (Serves)

variable {d : Nat → Nat}

/-! ## Multi-level feedback on a flat batch -/

/-- Sorted by levels, of which there are at most two, one below the other. -/
def Banded (jobs : List Job) : Prop :=
  jobs.Pairwise fun a b => level a ≤ level b ∧ level b ≤ level a + 1

/-- No level the job has until it is finished overflows. -/
structure Levelled (d : Nat → Nat) (job : Job) : Prop where
  least : Fits (level job)
  greatest : Fits (job.priority + (d job.id - 1))

theorem levelled_resubmitted {job job' : Job} (h : Levelled d job)
    (hback : resubmitted d job = some job') :
    Levelled d job' ∧ level job' = level job + 1 := by
  rw [resubmitted, Option.ite_none_right_eq_some, Option.some.injEq] at hback
  rcases hback with ⟨hgo, rfl⟩
  have hleast := h.least
  have hgreatest := h.greatest
  refine ⟨⟨?_, hgreatest⟩, ?_⟩
  · simp only [level, Fits] at hleast hgreatest ⊢
    omega
  · simp only [level]
    omega

/-- The front is the first job of the least level. -/
theorem mlfq_front {job : Job} {jobs : List Job} (hband : Banded (job :: jobs))
    (hlev : ∀ x ∈ job :: jobs, Levelled d x) :
    Scheduler.mlfq.getNextJob (job :: jobs) = some (job, jobs) := by
  rcases Option.isSome_iff_exists.mp (Scheduler.mlfq.getNextJob_isSome (List.cons_ne_nil job jobs))
    with ⟨⟨x, rest⟩, hg⟩
  rcases Scheduler.mlfq_getNextJob (fun y hy => (hlev y hy).least) hg with
    ⟨pre, post, hsplit, hrest, hfirst⟩
  cases pre with
  | nil =>
      rw [List.nil_append, List.cons.injEq] at hsplit
      rw [hg, hrest, hsplit.1, hsplit.2, List.nil_append]
  | cons y pre =>
      -- a job in front of the one taken would be on a lower level than it
      rw [List.cons_append, List.cons.injEq] at hsplit
      have hx : x ∈ jobs := hsplit.2 ▸ List.mem_append_right pre List.mem_cons_self
      have hle := ((List.pairwise_cons.mp hband).1 x hx).1
      have hlt := hfirst.before y List.mem_cons_self
      rw [← hsplit.1] at hlt
      omega

theorem banded_turn {job : Job} {jobs : List Job} (hband : Banded (job :: jobs))
    (hlev : ∀ x ∈ job :: jobs, Levelled d x) :
    Banded (jobs ++ (resubmitted d job).toList) ∧
      ∀ x ∈ jobs ++ (resubmitted d job).toList, Levelled d x := by
  have hcons := List.pairwise_cons.mp hband
  cases hback : resubmitted d job with
  | none =>
      rw [Option.toList_none, List.append_nil]
      exact ⟨hcons.2, fun x hx => hlev x (List.mem_cons_of_mem job hx)⟩
  | some job' =>
      rcases levelled_resubmitted (hlev job List.mem_cons_self) hback with ⟨hjob', hlevel⟩
      rw [Option.toList_some]
      refine ⟨List.pairwise_append.mpr ⟨hcons.2, List.pairwise_singleton _ _, ?_⟩, ?_⟩
      · -- the job comes back one level below those that were on its own
        intro x hx y hy
        have hxl := hcons.1 x hx
        rw [List.mem_singleton.mp hy]
        omega
      · intro x hx
        rcases List.mem_append.mp hx with hx | hx
        · exact hlev x (List.mem_cons_of_mem job hx)
        · rw [List.mem_singleton.mp hx]
          exact hjob'

/-- On a batch of one priority without overflow, `MLFQScheduler` and
    `RoundRobinScheduler` have one schedule. -/
theorem schedule_mlfq {batch : List Job} {p : Int} (hflat : ∀ job ∈ batch, job.priority = p)
    (hfresh : ∀ job ∈ batch, job.elapsedBursts = 0) (hd : ∀ job ∈ batch, 0 < d job.id)
    (hfits : ∀ job ∈ batch, Fits (p + (d job.id - 1))) (hp : Fits p) :
    schedule .mlfq d batch = schedule .roundRobin d batch := by
  have hlevel : ∀ job ∈ batch, level job = p := by
    intro job hjob
    rw [level, hflat job hjob, hfresh job hjob, Int.add_zero]
  have hband : Banded batch := by
    refine List.pairwise_of_forall_mem_list fun a ha b hb => ?_
    have hal := hlevel a ha
    have hbl := hlevel b hb
    omega
  have hlev : ∀ job ∈ batch, Levelled d job := fun job hjob =>
    ⟨hlevel job hjob ▸ hp, hflat job hjob ▸ hfits job hjob⟩
  -- every turn of round robin on a banded deque is one of multi-level feedback
  have hturn : ∀ jobs x rest, (Banded jobs ∧ ∀ x ∈ jobs, Levelled d x) →
      Scheduler.roundRobin.getNextJob jobs = some (x, rest) →
      Scheduler.mlfq.getNextJob jobs = some (x, rest) ∧
        (Banded (rest ++ (resubmitted d x).toList) ∧
          ∀ y ∈ rest ++ (resubmitted d x).toList, Levelled d y) := by
    rintro jobs x rest ⟨hb, hl⟩ hg
    cases jobs with
    | nil => simp only [getNextJob_nil, reduceCtorEq] at hg
    | cons job jobs =>
        simp only [Scheduler.getNextJob, RoundRobinScheduler.getNextJob, Option.some.injEq,
          Prod.mk.injEq] at hg
        rcases hg with ⟨rfl, rfl⟩
        exact ⟨mlfq_front hb hl, banded_turn hb hl⟩
  have hmlfq := (serves_schedule .roundRobin hfresh hd).of_agree hturn ⟨hband, hlev⟩
  rw [schedule, schedule, hmlfq.unique (getNextJob_nil .mlfq) (serves_schedule .mlfq hfresh hd)]

/-- A run of `MLFQScheduler` and one of `RoundRobinScheduler` over the same
    flat batch dequeue the same jobs, as far as they go. -/
theorem mlfq_refines_roundRobin (r : BatchRun .mlfq d) (r' : BatchRun .roundRobin d) {p : Int}
    (hsame : r.batch = r'.batch) (hflat : ∀ job ∈ r.batch, job.priority = p)
    (hd : ∀ job ∈ r.batch, 0 < d job.id) (hfits : ∀ job ∈ r.batch, Fits (p + (d job.id - 1)))
    (hp : Fits p) :
    (r.order <+: r'.order ∨ r'.order <+: r.order) ∧
      (r.Finished → r'.Finished → r.order = r'.order) := by
  have hschedule := schedule_mlfq hflat r.fresh hd hfits hp
  have hd' : ∀ job ∈ r'.batch, 0 < d job.id := hsame ▸ hd
  rw [hsame] at hschedule
  constructor
  · have hr := r.order_isPrefix hd
    rw [hsame, hschedule] at hr
    exact List.prefix_or_prefix_of_prefix hr (r'.order_isPrefix hd')
  · intro hfin hfin'
    rw [r.order_eq_schedule hd hfin, r'.order_eq_schedule hd' hfin', hsame, hschedule]

/-- Two jobs of two bursts each, on one level. -/
theorem mlfq_refines_roundRobin_two : ∃ (r : BatchRun .mlfq fun _ => 2)
    (r' : BatchRun .roundRobin fun _ => 2), r.Finished ∧ r'.Finished ∧
      r.batch.map Job.id = [1, 2] ∧ r.order = r'.order := by
  let a : Submission := { id := 1, cmd := {}, resultPromise := none }
  let b : Submission := { id := 2, cmd := {}, resultPromise := none }
  have hpair : [a, b].Pairwise Distinct := List.pairwise_pair.mpr ⟨by decide, .inl rfl⟩
  rcases exists_finished .mlfq (fun _ => 2) [a, b] hpair with ⟨r, hbatch, hfin⟩
  rcases exists_finished .roundRobin (fun _ => 2) [a, b] hpair with ⟨r', hbatch', hfin'⟩
  have hflat : ∀ job ∈ r.batch, job.priority = 0 := by
    rw [hbatch]
    decide
  have horder := (mlfq_refines_roundRobin r r' (hbatch.trans hbatch'.symm) hflat
    (fun _ _ => by decide) (fun _ _ => ⟨by decide, by decide⟩) ⟨by decide, by decide⟩).2 hfin hfin'
  exact ⟨r, r', hfin, hfin', by rw [hbatch]; rfl, horder⟩

/-! ## Priorities -/

/-- The priorities of a batch, in descending order. -/
def priorities (batch : List Job) : List Int :=
  (batch.map Job.priority).dedup.insertionSort (· ≥ ·)

/-- The jobs of one priority, in the order they were enqueued. -/
def ofPriority (batch : List Job) (p : Int) : List Job := batch.filter fun job => job.priority = p

/-- The jobs of the other priorities. -/
def otherwise (batch : List Job) (p : Int) : List Job := batch.filter fun job => job.priority ≠ p

theorem mem_priorities {batch : List Job} {job : Job} (h : job ∈ batch) :
    job.priority ∈ priorities batch := by
  rw [priorities, (List.perm_insertionSort _ _).mem_iff, List.mem_dedup]
  exact List.mem_map.mpr ⟨job, h, rfl⟩

theorem priorities_descend (batch : List Job) : (priorities batch).Pairwise (· > ·) := by
  have hsorted := List.pairwise_insertionSort (· ≥ ·) (batch.map Job.priority).dedup
  have hnodup : (priorities batch).Nodup :=
    (List.perm_insertionSort _ _).nodup_iff.mpr (List.nodup_dedup _)
  exact (hsorted.and hnodup).imp fun h => lt_of_le_of_ne h.1 (Ne.symm h.2)

theorem resubmitted_priority {job job' : Job} (h : resubmitted d job = some job') :
    job'.priority = job.priority := by
  rw [resubmitted, Option.ite_none_right_eq_some, Option.some.injEq] at h
  exact h.2 ▸ rfl

theorem filter_resubmitted (job : Job) (p : Int → Bool) :
    (resubmitted d job).toList.filter (fun x => p x.priority)
      = if p job.priority then (resubmitted d job).toList else [] := by
  cases hback : resubmitted d job with
  | none => split <;> rfl
  | some job' =>
      rw [Option.toList_some, ← resubmitted_priority hback]
      split
      · rename_i h
        simp only [List.filter_cons, h, if_true, List.filter_nil]
      · rename_i h
        simp only [List.filter_cons, h, Bool.false_eq_true, if_false, List.filter_nil]

/-- The job taken is the first one of the greatest priority there is. -/
theorem priority_takes {jobs rest hi : List Job} {x job : Job} {p : Int}
    (hmax : ∀ y ∈ jobs, y.priority ≤ p) (hlevel : ofPriority jobs p = x :: hi)
    (hg : Scheduler.priority.getNextJob jobs = some (job, rest)) :
    job = x ∧ ofPriority rest p = hi ∧ otherwise rest p = otherwise jobs p := by
  rcases Scheduler.priority_getNextJob hg with ⟨pre, post, hsplit, hrest, hbefore, hafter⟩
  have hx : x ∈ jobs ∧ x.priority = p := by
    have hmem : x ∈ ofPriority jobs p := hlevel ▸ List.mem_cons_self
    simpa only [ofPriority, List.mem_filter, decide_eq_true_eq] using hmem
  have hjob : job ∈ jobs := hsplit ▸ List.mem_append_right pre List.mem_cons_self
  have hp : job.priority = p := by
    refine Int.le_antisymm (hmax job hjob) ?_
    rw [← hx.2]
    have hmem := hx.1
    rw [hsplit] at hmem
    rcases List.mem_append.mp hmem with hm | hm
    · exact Int.le_of_lt (hbefore x hm)
    · rcases List.mem_cons.mp hm with rfl | hm
      · exact Int.le_refl _
      · exact hafter x hm
  have hpre : ofPriority pre p = [] := by
    refine List.filter_eq_nil_iff.mpr fun y hy => ?_
    have := hbefore y hy
    simp only [decide_eq_true_eq]
    omega
  simp only [ofPriority, otherwise] at hlevel hpre ⊢
  rw [hsplit, List.filter_append, hpre, List.nil_append,
    List.filter_cons_of_pos (by simpa only [decide_eq_true_eq]), List.cons.injEq] at hlevel
  refine ⟨hlevel.1, ?_, ?_⟩
  · rw [hrest, List.filter_append, hpre, List.nil_append, hlevel.2]
  · rw [hrest, hsplit, List.filter_append, List.filter_append, List.filter_cons_of_neg
      (by simpa only [ne_eq, decide_not, Bool.not_eq_true', decide_eq_false_iff_not, not_not])]

/-- The jobs of the greatest priority are served by themselves, and leave the
    others as they are. -/
theorem serves_top {p : Int} {hi xs jobs : List Job}
    (h : Serves Scheduler.roundRobin.getNextJob (resubmitted d) hi xs [])
    (hlevel : ofPriority jobs p = hi) (hmax : ∀ y ∈ jobs, y.priority ≤ p) :
    Serves Scheduler.priority.getNextJob (resubmitted d) jobs xs (otherwise jobs p) := by
  generalize hempty : ([] : List Job) = e at h
  induction h generalizing jobs with
  | done hi =>
      -- none of this priority is left
      rw [← hempty] at hlevel
      have hall : otherwise jobs p = jobs := by
        refine List.filter_eq_self.mpr fun y hy => ?_
        have hy' := List.filter_eq_nil_iff.mp hlevel y hy
        simpa only [ne_eq, decide_not, Bool.not_eq_true', decide_eq_false_iff_not,
          decide_eq_true_eq] using hy'
      rw [hall]
      exact .done jobs
  | turn hi rest xs e x hpick _ ih =>
      cases hi with
      | nil => simp only [getNextJob_nil, reduceCtorEq] at hpick
      | cons y hi =>
          simp only [Scheduler.getNextJob, RoundRobinScheduler.getNextJob, Option.some.injEq,
            Prod.mk.injEq] at hpick
          rcases hpick with ⟨rfl, rfl⟩
          have hne : jobs ≠ [] := by
            rintro rfl
            simp only [ofPriority, List.filter_nil, List.nil_eq, reduceCtorEq] at hlevel
          rcases Option.isSome_iff_exists.mp (Scheduler.priority.getNextJob_isSome hne) with
            ⟨⟨job, left⟩, hg⟩
          rcases priority_takes hmax hlevel hg with ⟨rfl, hhi, hothers⟩
          have hjob : job.priority = p := by
            have hmem : job ∈ ofPriority jobs p := hlevel ▸ List.mem_cons_self
            exact of_decide_eq_true (List.mem_filter.mp hmem).2
          have hsame : ofPriority (left ++ (resubmitted d job).toList) p
              = hi ++ (resubmitted d job).toList := by
            rw [ofPriority, List.filter_append, ← ofPriority, hhi,
              filter_resubmitted job (fun q => decide (q = p)), if_pos (decide_eq_true hjob)]
          have hleft : otherwise (left ++ (resubmitted d job).toList) p = otherwise jobs p := by
            rw [otherwise, List.filter_append, ← otherwise, hothers,
              filter_resubmitted job (fun q => decide (q ≠ p)),
              if_neg (by simpa only [ne_eq, decide_not, Bool.not_eq_true', decide_eq_false_iff_not,
                not_not]), List.append_nil]
          have hperm := Scheduler.getNextJob_perm hg
          have hrest := ih hsame (fun y hy => ?_) hempty
          · rw [hleft] at hrest
            exact .turn jobs left _ _ job hg hrest
          · rcases List.mem_append.mp hy with hy | hy
            · exact hmax y (hperm.mem_iff.mpr (List.mem_cons_of_mem job hy))
            · rw [resubmitted_priority (Option.mem_toList.mp hy), hjob]

theorem ofPriority_otherwise {jobs : List Job} {p q : Int} (h : q ≠ p) :
    ofPriority (otherwise jobs p) q = ofPriority jobs q := by
  rw [ofPriority, ofPriority, otherwise, List.filter_filter]
  refine List.filter_congr fun job _ => ?_
  by_cases hq : job.priority = q
  · simp only [hq, h, decide_true, ne_eq, not_false_eq_true, Bool.and_self]
  · simp only [hq, decide_false, Bool.false_and]

/-- One priority after the other, from the greatest down. -/
theorem serves_priorities {xs : Int → List Job} : ∀ (ps : List Int) (jobs : List Job),
    ps.Pairwise (· > ·) → (∀ job ∈ jobs, job.priority ∈ ps) →
    (∀ p ∈ ps, Serves Scheduler.roundRobin.getNextJob (resubmitted d) (ofPriority jobs p)
      (xs p) []) →
    Serves Scheduler.priority.getNextJob (resubmitted d) jobs (ps.flatMap xs) [] := by
  intro ps
  induction ps with
  | nil =>
      intro jobs _ hall _
      have hnil : jobs = [] :=
        List.eq_nil_iff_forall_not_mem.mpr fun job hjob => List.not_mem_nil (hall job hjob)
      rw [hnil]
      exact .done []
  | cons p ps ih =>
      intro jobs hdesc hall hserves
      rcases List.pairwise_cons.mp hdesc with ⟨hp, hdesc⟩
      have htop := serves_top (hserves p List.mem_cons_self) rfl fun job hjob => by
        rcases List.mem_cons.mp (hall job hjob) with hq | hq
        · exact Int.le_of_eq hq
        · exact Int.le_of_lt (hp _ hq)
      have hrest := ih (otherwise jobs p) hdesc (fun job hjob => ?_) (fun q hq => ?_)
      · exact htop.trans hrest
      · have hmem := List.mem_filter.mp hjob
        exact (List.mem_cons.mp (hall job hmem.1)).resolve_left (of_decide_eq_true hmem.2)
      · rw [ofPriority_otherwise (Int.ne_of_lt (hp q hq))]
        exact hserves q (List.mem_cons_of_mem p hq)

/-- On any batch, `PriorityScheduler` serves one priority after the other, and
    each of them as `RoundRobinScheduler` serves its jobs alone. -/
theorem schedule_priority {batch : List Job} (hfresh : ∀ job ∈ batch, job.elapsedBursts = 0)
    (hd : ∀ job ∈ batch, 0 < d job.id) :
    schedule .priority d batch
      = (priorities batch).flatMap fun p => schedule .roundRobin d (ofPriority batch p) := by
  have hserves := serves_priorities (priorities batch) batch (priorities_descend batch)
    (fun job hjob => mem_priorities hjob) fun p _ =>
      serves_schedule .roundRobin (fun job hjob => hfresh job (List.mem_filter.mp hjob).1)
        fun job hjob => hd job (List.mem_filter.mp hjob).1
  rw [schedule, hserves.unique (getNextJob_nil .priority) (serves_schedule .priority hfresh hd),
    List.map_flatMap]
  rfl

/-- A run of `PriorityScheduler` dequeues the jobs of a batch priority by
    priority in descending order, each as a run of `RoundRobinScheduler` over
    the jobs of that priority does. -/
theorem priority_by_levels (r : BatchRun .priority d) (hd : ∀ job ∈ r.batch, 0 < d job.id) :
    r.order <+: (priorities r.batch).flatMap
        (fun p => schedule .roundRobin d (ofPriority r.batch p)) ∧
      (r.Finished → r.order = (priorities r.batch).flatMap
        fun p => schedule .roundRobin d (ofPriority r.batch p)) ∧
      ∀ rr : Int → BatchRun .roundRobin d,
        (∀ p ∈ priorities r.batch, (rr p).batch = ofPriority r.batch p ∧ (rr p).Finished) →
        r.Finished → r.order = (priorities r.batch).flatMap fun p => (rr p).order := by
  have hschedule := schedule_priority r.fresh hd
  refine ⟨hschedule ▸ r.order_isPrefix hd, fun hfin => ?_, fun rr hrr hfin => ?_⟩
  · rw [r.order_eq_schedule hd hfin, hschedule]
  · rw [r.order_eq_schedule hd hfin, hschedule]
    refine List.flatMap_congr fun p hp => ?_
    have hdp : ∀ job ∈ (rr p).batch, 0 < d job.id := by
      rw [(hrr p hp).1]
      exact fun job hjob => hd job (List.mem_filter.mp hjob).1
    rw [(rr p).order_eq_schedule hdp (hrr p hp).2, (hrr p hp).1]

/-- The second of two jobs has the greater priority, and the first needs two
    bursts. -/
theorem priority_by_levels_two : ∃ r : BatchRun .priority fun i => 3 - i,
    r.Finished ∧ r.batch.map Job.id = [1, 2] ∧ r.order = [2, 1, 1] := by
  let a : Submission := { id := 1, cmd := {}, resultPromise := none }
  let b : Submission := { id := 2, cmd := {}, resultPromise := none, priority := 5 }
  rcases exists_finished .priority (fun i => 3 - i) [a, b]
    (List.pairwise_pair.mpr ⟨by decide, .inl rfl⟩) with ⟨r, hbatch, hfin⟩
  have hd : ∀ job ∈ r.batch, 0 < 3 - job.id := by
    rw [hbatch]
    decide
  refine ⟨r, hfin, by rw [hbatch]; rfl, ?_⟩
  rw [(priority_by_levels r hd).2.1 hfin, hbatch]
  decide

end Pool

end Isolyx
