import Isolyx.Core.Schedule

/-!
# Who Overtakes Whom

Each of the four schedulers has a number for a job, the same for all jobs,
minus the priority, or the level, and takes the first of the jobs for which it
is least. So the deque is one queue for each number. What a run takes out with
a number, followed by what it leaves with that number, is what there was with
it, followed by what came (`fifo_in_class`): a client's job and a preempted one
alike, however many workers take and bring, and in whatever order.

A job that waits is then overtaken by jobs of a lesser number, and by those of
its own that stood in front of it, each of these once and in their order
(`overtaken_by`). With one number for all jobs nobody else overtakes, so that
as many turns pass as there are jobs in front.

## Main definitions

* `rank`: The number a scheduler goes by.
* `added`: The job a step puts into the deque.

## Theorems

* `getNextJob_first`: A scheduler takes the first of the least.
* `fifo_in_class`: Within one number, the deque is a queue.
* `overtaken_by`: Who is served while a job waits.
-/

namespace Isolyx

namespace Pool

variable {n : Nat} {sched : Scheduler} {s t : State n} {a : Action n}

/-- The number a scheduler goes by; the least comes first. -/
def rank : Scheduler → Job → Int
  | .fcfs, _ | .roundRobin, _ => 0
  | .priority, job => -job.priority
  | .mlfq, job => MLFQScheduler.key job

theorem getNextJob_first {jobs rest : List Job} {job : Job}
    (h : sched.getNextJob jobs = some (job, rest)) :
    ∃ pre post, jobs = pre ++ job :: post ∧ rest = pre ++ post ∧
      Select.FirstLeast (rank sched) pre job post := by
  cases sched with
  | fcfs | roundRobin =>
      cases jobs with
      | nil => simp only [Scheduler.getNextJob, FCFSScheduler.getNextJob,
          RoundRobinScheduler.getNextJob, reduceCtorEq] at h
      | cons x jobs =>
          simp only [Scheduler.getNextJob, FCFSScheduler.getNextJob,
            RoundRobinScheduler.getNextJob, Option.some.injEq, Prod.mk.injEq] at h
          rcases h with ⟨rfl, rfl⟩
          exact ⟨[], jobs, rfl, rfl, fun _ hx => absurd hx List.not_mem_nil,
            fun _ _ => Int.le_refl 0⟩
  | priority =>
      rcases Scheduler.priority_getNextJob h with ⟨pre, post, hsplit, hrest, hbefore, hafter⟩
      exact ⟨pre, post, hsplit, hrest, fun x hx => Int.neg_lt_neg (hbefore x hx),
        fun x hx => Int.neg_le_neg (hafter x hx)⟩
  | mlfq => exact Select.takeAt_minElement MLFQScheduler.key h

/-- The job a step puts into the deque. -/
def added (s : State n) : Action n → Option Job
  | .enqueue sub _ => some sub.job
  | .requeue w _ => match s.workers w with
      | .requeueing job => some (MLFQScheduler.demote job)
      | _ => none
  | _ => none

/-- The jobs a run puts into the deque, in their order. -/
def arrived (sched : Scheduler) (s : State n) (actions : List (Action n)) : List Job :=
  Lts.trace (step sched) added s actions

/-- The jobs of one number. -/
def inClass (sched : Scheduler) (k : Int) (jobs : List Job) : List Job :=
  jobs.filter fun job => rank sched job = k

theorem inClass_append (sched : Scheduler) (k : Int) (jobs jobs' : List Job) :
    inClass sched k (jobs ++ jobs') = inClass sched k jobs ++ inClass sched k jobs' :=
  List.filter_append jobs jobs'

/-- What a scheduler takes is the first of its number. -/
theorem inClass_takes {jobs rest : List Job} {job : Job}
    (h : sched.getNextJob jobs = some (job, rest)) (k : Int) :
    inClass sched k [job] ++ inClass sched k rest = inClass sched k jobs := by
  rcases getNextJob_first h with ⟨pre, post, rfl, rfl, hfirst⟩
  have hcons : inClass sched k (job :: post) = inClass sched k [job] ++ inClass sched k post :=
    inClass_append sched k [job] post
  rw [inClass_append, inClass_append, hcons]
  by_cases hk : rank sched job = k
  · have hpre : inClass sched k pre = [] := by
      refine List.filter_eq_nil_iff.mpr fun x hx => ?_
      have hlt := hfirst.before x hx
      rw [decide_eq_true_iff]
      omega
    rw [hpre, List.nil_append, List.nil_append]
  · have hjob : inClass sched k [job] = [] := by
      rw [inClass, List.filter_cons_of_neg (by simpa using hk), List.filter_nil]
    rw [hjob, List.nil_append, List.nil_append]

theorem inClass_moves (h : Moves sched s a t) (k : Int) :
    inClass sched k (taken sched s a).toList ++ inClass sched k t.jobs
      = inClass sched k s.jobs ++ inClass sched k (added s a).toList := by
  cases h with
  | enqueues sub wake ws hnew hwake => exact inClass_append sched k s.jobs [sub.job]
  | requeues w job wake ws hw hwake =>
      simp only [added, hw]
      exact inClass_append sched k s.jobs _
  | takes w job rest hw hg =>
      rw [taken, if_pos hw, hg]
      exact (inClass_takes hg k).trans (List.append_nil _).symm
  | blocks w hw hj hq | departs w hw hj hq =>
      have hnone : sched.getNextJob [] = none := by cases sched <;> rfl
      simp only [taken, hw, if_true, hj, hnone, added, setWorker]
      rfl
  | _ => exact (List.append_nil _).symm

/-- Any number of clients and workers, from any state: what is taken out with a
    number, followed by what is left with it, is what there was with it,
    followed by what came. -/
theorem fifo_in_class {actions : List (Action n)}
    (h : Lts.run (step sched) s actions = some t) (k : Int) :
    inClass sched k (served sched s actions) ++ inClass sched k t.jobs
      = inClass sched k s.jobs ++ inClass sched k (arrived sched s actions) := by
  induction actions generalizing s with
  | nil =>
      simp only [Lts.run, Option.some.injEq] at h
      rw [h]
      exact (List.append_nil _).symm
  | cons a actions ih =>
      rcases Lts.run_cons.mp h with ⟨u, hu, hr⟩
      have hone := inClass_moves (moves_of_step hu) k
      have hrest := ih hr
      rw [served, arrived, Lts.trace_cons hu, Lts.trace_cons hu, inClass_append, inClass_append,
        List.append_assoc]
      calc inClass sched k (taken sched s a).toList ++ (inClass sched k (served sched u actions)
            ++ inClass sched k t.jobs)
          = inClass sched k (taken sched s a).toList ++ (inClass sched k u.jobs
            ++ inClass sched k (arrived sched u actions)) := by rw [hrest]
        _ = inClass sched k s.jobs ++ (inClass sched k (added s a).toList
            ++ inClass sched k (arrived sched u actions)) := by
              rw [← List.append_assoc, hone, List.append_assoc]

/-- A job that is in the deque and not taken stays there. -/
theorem waits_moves (h : Moves sched s a t) {x : Job} (hx : x ∈ s.jobs)
    (htaken : taken sched s a ≠ some x) : x ∈ t.jobs := by
  cases h with
  | enqueues | requeues => exact List.mem_append_left _ hx
  | takes w job rest hw hg =>
      rcases List.mem_cons.mp ((Scheduler.getNextJob_perm hg).mem_iff.mp hx) with rfl | hrest
      · rw [taken, if_pos hw, hg] at htaken
        exact absurd rfl htaken
      · exact hrest
  | _ => exact hx

/-- What is taken has the least number of all that wait. -/
theorem rank_taken {x y : Job} (hx : x ∈ s.jobs) (h : taken sched s a = some y) :
    rank sched y ≤ rank sched x := by
  cases a with
  | dequeue w =>
      rw [taken, Option.ite_none_right_eq_some, Option.map_eq_some_iff] at h
      rcases h with ⟨_, ⟨job, rest⟩, hg, rfl⟩
      rcases getNextJob_first hg with ⟨pre, post, hsplit, _, hfirst⟩
      rw [hsplit] at hx
      rcases List.mem_append.mp hx with hx | hx
      · exact Int.le_of_lt (hfirst.before x hx)
      · rcases List.mem_cons.mp hx with rfl | hx
        · exact Int.le_refl _
        · exact hfirst.after x hx
  | _ => simp only [taken, reduceCtorEq] at h

/-- For any scheduler, any number of clients and workers, from any state and in
    any interleaving: while a job waits, nothing of a greater number is served,
    and what is served with its own number stood in front of it and is served
    in that order, each once. -/
theorem overtaken_by {actions : List (Action n)} {pre post : List Job} {x : Job}
    (h : Lts.run (step sched) s actions = some t) (hsplit : s.jobs = pre ++ x :: post)
    (hwaits : x ∉ served sched s actions) :
    (∀ y ∈ served sched s actions, rank sched y ≤ rank sched x) ∧
      inClass sched (rank sched x) (served sched s actions)
        <+: inClass sched (rank sched x) pre := by
  constructor
  · have hx : x ∈ s.jobs := hsplit ▸ List.mem_append_right pre List.mem_cons_self
    clear hsplit
    induction actions generalizing s with
    | nil => exact fun y hy => absurd hy List.not_mem_nil
    | cons a actions ih =>
        rcases Lts.run_cons.mp h with ⟨u, hu, hr⟩
        rw [served, Lts.trace_cons hu] at hwaits ⊢
        rw [List.mem_append, not_or, Option.mem_toList] at hwaits
        have hstays := waits_moves (moves_of_step hu) hx fun htaken => hwaits.1 htaken
        intro y hy
        rcases List.mem_append.mp hy with hy | hy
        · exact rank_taken hx (Option.mem_toList.mp hy)
        · exact ih hr hwaits.2 hstays y hy
  · have hlaw := fifo_in_class h (rank sched x)
    have hself : inClass sched (rank sched x) (x :: post)
        = x :: inClass sched (rank sched x) post :=
      List.filter_cons_of_pos (by simp)
    rw [hsplit, inClass_append, hself, List.append_assoc] at hlaw
    rcases List.append_eq_append_iff.mp hlaw with ⟨rest, hpre, _⟩ | ⟨rest, hserved, hrest⟩
    · exact ⟨rest, hpre.symm⟩
    · -- had more been served, the job itself would have been
      cases rest with
      | nil => exact ⟨[], by rw [hserved, List.append_nil, List.append_nil]⟩
      | cons y rest =>
          rw [List.cons_append, List.cons_append, List.cons.injEq] at hrest
          have hmem : x ∈ inClass sched (rank sched x) (served sched s actions) :=
            hserved ▸ List.mem_append_right _ (hrest.1 ▸ List.mem_cons_self)
          exact absurd (List.mem_filter.mp hmem).1 hwaits

/-- The third of three jobs has the greater priority. It and the first one are
    served before the second. -/
theorem overtaken_by_two : ∃ (s : State 2) (a b c : Job), s.jobs = [a, b, c] ∧
    (served .priority s [.testRunning 0, .dequeue 0, .testRunning 1, .dequeue 1]).map Job.id
      = [3, 1] ∧
    inClass .priority (rank .priority b)
      (served .priority s [.testRunning 0, .dequeue 0, .testRunning 1, .dequeue 1])
        <+: inClass .priority (rank .priority b) [a] := by
  let a : Submission := { id := 1, cmd := {}, resultPromise := none }
  let b : Submission := { id := 2, cmd := {}, resultPromise := none }
  let c : Submission := { id := 3, cmd := {}, resultPromise := none, priority := 5 }
  refine ⟨{ init 2 with jobs := [a.job, b.job, c.job] }, a.job, b.job, c.job, rfl, by decide, ?_⟩
  exact (overtaken_by (x := b.job) (t := _) rfl rfl (by decide)).2

end Pool

end Isolyx
