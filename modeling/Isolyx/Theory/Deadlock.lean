import Isolyx.Theory.Liveness
import Isolyx.Theory.Reports

/-!
# No Deadlock on the Locks

That the pool comes to rest when it is run lock by lock. Whoever has a mutex can
go on: a section of the queue is straight code without another lock in it, and a
report puts its pieces out one after the other (`inside_goes`, `report_goes`). So
where nothing can move by itself both mutexes are free, nobody waits for one,
and the atomic pool cannot move either (`resting_of_stuck`). What `Liveness` says
of the places where that one rests holds here.

How long it takes is bounded as well. A section has five accesses and a report
as many pieces as the observers have, so between two steps of the atomic pool
there are boundedly many others (`rank`), and the steps of the atomic pool are
bounded by its work. A client that has called `enqueue` is worth what its job
will be.

## Main definitions

* `Own`: A step the engine takes by itself.
* `Resting`: Both mutexes are free, and nobody waits for one.
* `rank`: How far the sections and the report that are under way have come.
* `Worth`: How many steps of its own a state is worth at most.

## Theorems

* `inside_goes`: Who is in a section of the queue can go on.
* `report_goes`: Who reports can go on.
* `resting_of_stuck`: Where nothing moves, the locks are free and the pool rests.
* `worth_moves`: A step uses up what the state is worth.
* `served_by_locks`: The pool comes to rest, lock by lock.
-/

namespace Isolyx

namespace Locks

open Pool (Worker Submission setWorker notifyOne Drained)
open Sections (Body Code Mutex)
open Collector (Observer)

variable {n : Nat} {sched : Scheduler} {observers : List Observer} {s t : State n}

/-- A step the engine takes by itself: no client calls `enqueue`, nobody calls
    `stop`, and no worker wakes without a cause. -/
def Own : Action n → Prop
  | .call _ _ | .own (.wakeSpuriously _) | .own .clearRunning => False
  | _ => True

/-! ## Who can go on -/

theorem step_alive (h : s.terminated = false) (a : Action n) :
    step sched observers s a = stepAlive sched observers s a := by
  rw [step, h, if_neg Bool.false_ne_true]

/-- `dequeue` ends in one of four ways. -/
theorem afterDequeue_isSome {q d : Queue} {out : Outcome} (p : Pool.State n) (w : Fin n)
    (h : (dequeueBody sched).eval q = (d, out)) : ∃ p', afterDequeue p w out = some p' := by
  have hsome := afterDequeue_eval p w h
  cases out with
  | blocks | departs | takes | undefined => exact ⟨_, rfl⟩
  | added | stopped => simp only [afterDequeue, reduceCtorEq] at hsome

/-- Who is in a section of the queue can go on. -/
theorem inside_goes {q : Queue} (hs : Atomic sched s q) (halive : s.terminated = false)
    {i : Thread n} {code : Code Queue Outcome} (hi : s.queue.inside i = some code) :
    ∃ a t, Own a ∧ step sched observers s a = some t := by
  cases code with
  | leaving => exact ⟨.unlock i, _, trivial, by simp only [step_alive halive, stepAlive, hi]; rfl⟩
  | running rest => cases rest with
    | act write next =>
        exact ⟨.act i, _, trivial, by simp only [step_alive halive, stepAlive, hi]; rfl⟩
    | ret out =>
        rcases Sections.eval_of_covers hs.covers hi with ⟨body, hbody, heval⟩
        cases i with
        | stopper =>
            exact ⟨.leave .stopper, _, trivial, by
              simp only [step_alive halive, stepAlive, hi]; rfl⟩
        | client c =>
            rcases Option.map_eq_some_iff.mp hbody with ⟨sub, hc, rfl⟩
            rw [eval_enqueueBody, Prod.mk.injEq] at heval
            rcases heval.2 with rfl
            rcases Shutdown.exists_notifyOne s.pool.workers with ⟨wake, ws, hwake⟩
            exact ⟨.notify (.client c) wake, _, trivial, by
              simp only [step_alive halive, stepAlive, hi, notify, hc, hwake, Option.map_some]
              rfl⟩
        | worker w =>
            simp only [whole] at hbody
            split at hbody
            · rw [Option.some.injEq] at hbody
              subst hbody
              rcases afterDequeue_isSome s.pool w heval with ⟨p, hp⟩
              exact ⟨.leave (.worker w), _, trivial, by
                simp only [step_alive halive, stepAlive, hi, hp, Option.map_some]; rfl⟩
            · rename_i job hw
              rw [Option.some.injEq] at hbody
              subst hbody
              rw [eval_enqueueBody, Prod.mk.injEq] at heval
              rcases heval.2 with rfl
              rcases Shutdown.exists_notifyOne (setWorker s.pool w .atLoopHead).workers with
                ⟨wake, ws, hwake⟩
              exact ⟨.notify (.worker w) wake, _, trivial, by
                simp only [step_alive halive, stepAlive, hi, notify, hw, hwake, Option.map_some]
                rfl⟩
            · simp only [reduceCtorEq] at hbody

/-- Who reports can go on. -/
theorem report_goes {rs : List JobResult} (hs : Reporting observers rs s)
    (halive : s.terminated = false) {w : Fin n} {rest : List Piece}
    (hw : s.collector.inside w = some rest) :
    ∃ a t, Own a ∧ step sched observers s a = some t := by
  cases rest with
  | nil =>
      rcases hs.busy w [] hw with ⟨job, res, _, hsub, _⟩
      exact ⟨.unlockCollector w, _, trivial, by
        simp only [step_alive halive, stepAlive, hw, Pool.step, hsub, Option.map_some]; rfl⟩
  | cons piece rest => cases piece with
    | put o bytes =>
        exact ⟨.put w, _, trivial, by simp only [step_alive halive, stepAlive, hw]; rfl⟩
    | throws =>
        exact ⟨.put w, _, trivial, by simp only [step_alive halive, stepAlive, hw]; rfl⟩

/-- Both mutexes are free, nobody waits for one, and the atomic pool cannot move. -/
structure Resting (sched : Scheduler) (s : State n) : Prop where
  queue : s.queue.holder = none
  collector : s.collector.holder = none
  clients : ∀ c, s.clients c = none
  pool : Lts.Stuck (Shutdown.step sched) Shutdown.Own s.pool

/-- Where nothing moves, the locks are free and the pool rests. -/
theorem resting_of_stuck {q : Queue} {rs : List JobResult} (hs : Atomic sched s q)
    (hr : Reporting observers rs s) (halive : s.terminated = false)
    (h : Lts.Stuck (step sched observers) Own s) : Resting sched s := by
  have hqueue : s.queue.holder = none := by
    by_contra hheld
    rcases Option.ne_none_iff_exists'.mp hheld with ⟨i, hi⟩
    rcases (hs.excl i).mp hi with ⟨code, hcode⟩
    rcases inside_goes hs halive hcode with ⟨a, t, ha, ht⟩
    exact h.not_step ha ht
  have hcollector : s.collector.holder = none := by
    by_contra hheld
    rcases Option.ne_none_iff_exists'.mp hheld with ⟨w, hw⟩
    rcases (hr.excl w).mp hw with ⟨rest, hrest⟩
    rcases report_goes hr halive hrest with ⟨a, t, ha, ht⟩
    exact h.not_step ha ht
  -- with the mutexes free, whoever wants one could take it
  have hlock : ∀ i body, whole sched s i ≠ some body := by
    intro i body hbody
    have hnone := h (.lock i) trivial
    simp only [step_alive halive, stepAlive, hbody, Mutex.take, hqueue, Option.isNone_none, if_true,
      Option.map_some, reduceCtorEq] at hnone
  have hreport : ∀ w job res, s.pool.workers w ≠ .submitting job res := by
    intro w job res hw
    have hnone := h (.lockCollector w) trivial
    simp only [step_alive halive, stepAlive, hw, Mutex.take, hcollector, Option.isNone_none,
      if_true, Option.map_some, reduceCtorEq] at hnone
  have hown : ∀ b, needsNoMutex s.queue b = true → Own (.own b) →
      Pool.step sched s.pool b = none := by
    intro b hb ho
    have hnone := h (.own b) ho
    simpa only [step_alive halive, stepAlive, hb, if_true, Option.map_eq_none_iff] using hnone
  have hout : ∀ i, s.queue.inside i = none := hs.excl.outside hqueue
  refine ⟨hqueue, hcollector, fun c => ?_, fun a ha => ?_⟩
  · by_contra hc
    rcases Option.ne_none_iff_exists'.mp hc with ⟨sub, hsub⟩
    exact hlock (.client c) _ (by rw [whole, hsub]; rfl)
  · refine Option.eq_none_iff_forall_ne_some.mpr fun v hv => ?_
    cases Shutdown.moves_of_step hv with
    | sets hflagged hopen =>
        have hstopped : s.stopped = false := by
          rw [← hs.stopped, ← Sections.eq_of_free hs.covers hs.excl hqueue]
          exact hopen
        exact hlock .stopper _ (by rw [whole, if_pos ⟨hflagged, hstopped⟩])
    | notifies hflagged hclosed =>
        have hstopped : s.stopped = true := by
          rw [← hs.stopped, ← Sections.eq_of_free hs.covers hs.excl hqueue]
          exact hclosed
        have hnone := h .notifyAll trivial
        simp only [step_alive halive, stepAlive, hflagged, hstopped, and_self, if_true,
          reduceCtorEq] at hnone
    | pools b _ hb hmoves =>
        rw [shutdown_step hb] at hv
        cases hmoves with
        | enqueues | wakes | clears => exact ha
        | stops => exact hb rfl
        | blocks w hw | departs w hw | takes w job rest hw | requeues w job wake ws hw =>
            exact hlock (.worker w) _ (by rw [whole, hw])
        | reports w job res hw => exact hreport w job res hw
        | enters w | leaves w =>
            exact Option.some_ne_none _ (hv.symm.trans (hown _ (by rw [needsNoMutex, hout]; rfl)
              (by trivial)))
        | preempts | finishes | files | passes | breaks | pays | ends | joins =>
            exact Option.some_ne_none _ (hv.symm.trans (hown _ (by rfl) (by trivial)))

/-! ## How long it takes -/

/-- The sections of the queue are short. -/
theorem steps_whole {i : Thread n} {body : Body Queue Outcome} (h : whole sched s i = some body)
    (q : Queue) : body.steps q ≤ 6 := by
  have hchoose : ∀ q, (chooseBody sched).steps q ≤ 2 := by
    intro q
    rw [chooseBody, Body.steps]
    split
    · exact Nat.le_succ _
    · exact Nat.le_refl _
  have hleave : ∀ q, (leaveBody sched).steps q ≤ 4 := by
    intro q
    have hmore := hchoose q
    rw [leaveBody, Body.steps]
    split
    · rw [Body.steps]
      split
      · rw [Body.steps]
        omega
      · simp only [id]
        omega
    · simp only [id]
      omega
  have hdequeue : (dequeueBody sched).steps q ≤ 6 := by
    have hmore := hleave q
    rw [dequeueBody, Body.steps]
    split
    · rw [Body.steps]
      split
      · simp only [id]
        omega
      · rw [Body.steps]
        omega
    · simp only [id]
      omega
  cases i with
  | client c =>
      rcases Option.map_eq_some_iff.mp h with ⟨sub, _, rfl⟩
      exact Nat.le_of_ble_eq_true rfl
  | stopper =>
      simp only [whole, Option.ite_none_right_eq_some, Option.some.injEq] at h
      exact h.2 ▸ Nat.le_of_ble_eq_true rfl
  | worker w =>
      simp only [whole] at h
      split at h
      · exact Option.some.inj h ▸ hdequeue
      · exact Option.some.inj h ▸ Nat.le_of_ble_eq_true rfl
      · simp only [reduceCtorEq] at h

theorem length_report (r : JobResult) : (report observers r).length ≤ 12 * observers.length := by
  have hone : ∀ o, (observe r o).length ≤ 12 := by
    intro o
    cases o with
    | logging => exact Nat.le_refl _
    | dashboard =>
        rw [observe]
        split <;> exact Nat.le_of_ble_eq_true rfl
  rw [report]
  induction observers with
  | nil => exact Nat.le_refl _
  | cons o os ih =>
      have hfirst := hone o
      rw [List.flatMap_cons, List.length_append, List.length_cons]
      omega

/-- How far the section that is under way has come. -/
def sectionRank (m : Mutex (Thread n) (Code Queue Outcome)) (d : Queue) : Nat :=
  match m.holder with
  | none => 1
  | some i => match m.inside i with
    | some (.running rest) => 8 - rest.steps d
    -- it took effect; the mutex is given back, and that is a step from 0 to 1
    | _ => 0

/-- How far the report that is under way has come. -/
def reportRank (observers : List Observer) (m : Mutex (Fin n) (List Piece)) : Nat :=
  match m.holder with
  | none => 0
  | some w => match m.inside w with
    | some rest => 12 * observers.length + 1 - rest.length
    | none => 0

def rank (observers : List Observer) (s : State n) : Nat :=
  sectionRank s.queue (data s.pool) + reportRank observers s.collector +
    if s.terminated then 1 else 0

/-- The steps between two of the atomic pool. -/
def grain (observers : List Observer) : Nat := 12 * observers.length + 11

theorem rank_lt (s : State n) : rank observers s < grain observers := by
  have hsection : sectionRank s.queue (data s.pool) ≤ 8 := by
    rw [sectionRank]
    split
    · omega
    · split <;> omega
  have hreport : reportRank observers s.collector ≤ 12 * observers.length + 1 := by
    rw [reportRank]
    split
    · omega
    · split <;> omega
  rw [rank, grain]
  split <;> omega

/-- What every step preserves: sections and reports are short, and a job is
    accepted once. -/
structure Brief (observers : List Observer) (s : State n) : Prop where
  sections : ∀ i rest, s.queue.inside i = some (.running rest) → rest.steps (data s.pool) ≤ 6
  reports : ∀ w rest, s.collector.inside w = some rest → rest.length ≤ 12 * observers.length
  excl : s.collector.Exclusive
  accepted : s.pool.accepted.Nodup

theorem brief_init (n : Nat) : Brief observers (init n) where
  sections _ _ h := absurd h.symm (Option.some_ne_none _)
  reports _ _ h := absurd h.symm (Option.some_ne_none _)
  excl := Sections.exclusive_free
  accepted := List.nodup_nil

/-- A step that leaves the sections as they are. -/
theorem Brief.keep (hs : Brief observers s) (hq : t.queue = s.queue)
    (hd : data t.pool = data s.pool) (hc : t.collector = s.collector)
    (ha : t.pool.accepted = s.pool.accepted) : Brief observers t where
  sections := by rw [hq, hd]; exact hs.sections
  reports := by rw [hc]; exact hs.reports
  excl := hc ▸ hs.excl
  accepted := ha ▸ hs.accepted

/-- A step after which nobody is in the middle of a section. -/
theorem Brief.quiet (hs : Brief observers s)
    (hq : ∀ i rest, t.queue.inside i ≠ some (.running rest)) (hc : t.collector = s.collector)
    (ha : t.pool.accepted = s.pool.accepted) : Brief observers t where
  sections i rest hi := absurd hi (hq i rest)
  reports := by rw [hc]; exact hs.reports
  excl := hc ▸ hs.excl
  accepted := ha ▸ hs.accepted

/-- A job that is new was not accepted. -/
theorem not_accepted (hf : Fresh s) {c : Nat} {sub : Submission} (hc : s.clients c = some sub) :
    sub.job ∉ s.pool.accepted := fun hmem =>
  ((Pool.isNew_iff sub _).mp (hf.accepted c sub hc) sub.job hmem).1 rfl

theorem brief_moves {q : Queue} {a : Action n} (hq : Atomic sched s q) (hs : Brief observers s)
    (h : Moves sched observers s a t) : Brief observers t := by
  cases h with
  | calls | notifies | throws => exact hs.keep rfl rfl rfl rfl
  | locks i body m hbody hm =>
      rcases Mutex.take_eq_some.mp hm with ⟨hfree, rfl⟩
      refine ⟨fun j rest hj => ?_, hs.reports, hs.excl, hs.accepted⟩
      by_cases hji : j = i
      · subst hji
        simp only [Function.update_self, Option.some.injEq, Code.running.injEq] at hj
        exact hj ▸ steps_whole hbody _
      · simp only [Function.update_of_ne hji, hq.excl.outside hfree, reduceCtorEq] at hj
  | acts i write next hi =>
      refine ⟨fun j rest hj => ?_, hs.reports, hs.excl, hs.accepted⟩
      by_cases hji : j = i
      · subst hji
        rw [Mutex.inside_goOn_self, Option.some.injEq, Code.running.injEq] at hj
        subst hj
        exact Nat.le_of_succ_le (hs.sections j _ hi)
      · rw [Mutex.inside_goOn_other _ _ hji] at hj
        exact absurd (hq.excl.eq hj hi) hji
  | leaves w out p hi hp =>
      refine hs.quiet (Sections.quiet_give hq.excl hi) rfl ?_
      cases out <;> simp only [afterDequeue, Option.some.injEq, reduceCtorEq] at hp <;>
        exact hp ▸ rfl
  | stops out hi => exact hs.quiet (Sections.quiet_give hq.excl hi) rfl rfl
  | requeues w wake job ws hi hw hwake =>
      exact hs.quiet (Sections.quiet_leaving hq.excl hi) rfl rfl
  | enqueues c wake sub ws hi hc hwake =>
      refine ⟨fun j rest hj => absurd hj (Sections.quiet_leaving hq.excl hi j rest), hs.reports,
        hs.excl, ?_⟩
      exact hs.accepted.append (List.nodup_singleton _)
        (List.disjoint_singleton.mpr (not_accepted hq.fresh hc))
  | unlocks i hi => exact hs.quiet (Sections.quiet_give hq.excl hi) rfl rfl
  | locksCollector w job res m hw hm =>
      have hexcl := Sections.exclusive_take hs.excl hm
      rcases Mutex.take_eq_some.mp hm with ⟨hfree, rfl⟩
      refine ⟨hs.sections, fun x rest hx => ?_, hexcl, hs.accepted⟩
      by_cases hxw : x = w
      · subst hxw
        simp only [Function.update_self, Option.some.injEq] at hx
        exact hx ▸ length_report _
      · simp only [Function.update_of_ne hxw, hs.excl.outside hfree, reduceCtorEq] at hx
  | puts w o bytes rest hw =>
      refine ⟨hs.sections, fun x more hx => ?_, Sections.exclusive_goOn hs.excl hw, hs.accepted⟩
      by_cases hxw : x = w
      · subst hxw
        rw [Mutex.inside_goOn_self, Option.some.injEq] at hx
        exact hx ▸ Nat.le_of_succ_le (hs.reports x _ hw)
      · rw [Mutex.inside_goOn_other _ _ hxw] at hx
        exact absurd (hs.excl.eq hx hw) hxw
  | unlocksCollector w p hw hp =>
      refine ⟨fun i rest hi => ?_, fun x rest hx => ?_, Sections.exclusive_give hs.excl hw, ?_⟩
      · rw [data_own rfl hp]
        exact hs.sections i rest hi
      · rw [hs.excl.inside_give hw] at hx
        simp only [reduceCtorEq] at hx
      · cases hp with
        | reports => exact hs.accepted
  | owns b p hb hp =>
      have hcalls := callsQueue_of_needsNoMutex hb
      refine hs.keep rfl (data_own hcalls hp) rfl (Pool.accepted_of_moves hp ?_)
      rintro sub wake rfl
      exact Bool.true_eq_false.mp hcalls

section

variable {m : Mutex (Thread n) (Code Queue Outcome)} {i : Thread n} {d : Queue}
  {c : Mutex (Fin n) (List Piece)} {w : Fin n}

theorem sectionRank_running (he : m.Exclusive) {rest : Body Queue Outcome}
    (hi : m.inside i = some (.running rest)) : sectionRank m d = 8 - rest.steps d := by
  simp only [sectionRank, (he i).mpr ⟨_, hi⟩, hi]

theorem sectionRank_leaving (he : m.Exclusive) (hi : m.inside i = some .leaving) :
    sectionRank m d = 0 := by
  simp only [sectionRank, (he i).mpr ⟨_, hi⟩, hi]

theorem sectionRank_free (h : m.holder = none) : sectionRank m d = 1 := by
  simp only [sectionRank, h]

theorem reportRank_inside (he : c.Exclusive) {rest : List Piece} (hw : c.inside w = some rest) :
    reportRank observers c = 12 * observers.length + 1 - rest.length := by
  simp only [reportRank, (he w).mpr ⟨_, hw⟩, hw]

theorem reportRank_free (h : c.holder = none) : reportRank observers c = 0 := by
  simp only [reportRank, h]

end

/-- A step that shows nothing brings a section or a report further. -/
theorem rank_silent {q : Queue} {a : Action n} (hq : Atomic sched s q) (hs : Brief observers s)
    (halive : s.terminated = false) (h : Moves sched observers s a t) (ha : shows s a = none)
    (hcall : ∀ c sub, a ≠ .call c sub) : rank observers s + 1 ≤ rank observers t := by
  cases h with
  | calls c sub => exact absurd rfl (hcall c sub)
  | locks i body m hbody hm =>
      have hexcl := Sections.exclusive_take hq.excl hm
      have hshort := steps_whole hbody (data s.pool)
      rcases Mutex.take_eq_some.mp hm with ⟨hfree, rfl⟩
      rw [rank, rank, sectionRank_free hfree,
        sectionRank_running hexcl (Function.update_self i _ _)]
      dsimp only
      omega
  | acts i write next hi =>
      have hshort := hs.sections i _ hi
      rw [rank, rank, sectionRank_running hq.excl hi,
        sectionRank_running (Sections.exclusive_goOn hq.excl hi) (Mutex.inside_goOn_self _ _ _)]
      rw [Body.steps] at hshort ⊢
      have hsame : data (setData s.pool (write (data s.pool))) = write (data s.pool) := rfl
      dsimp only
      rw [hsame]
      omega
  | unlocks i hi =>
      rw [rank, rank, sectionRank_leaving hq.excl hi, sectionRank_free rfl]
      dsimp only
      omega
  | locksCollector w job res m hw hm =>
      have hexcl := Sections.exclusive_take hs.excl hm
      have hshort : (report observers (jobResult job res)).length ≤ 12 * observers.length :=
        length_report _
      rcases Mutex.take_eq_some.mp hm with ⟨hfree, rfl⟩
      rw [rank, rank, reportRank_free hfree,
        reportRank_inside hexcl (Function.update_self w _ _)]
      dsimp only
      omega
  | puts w o bytes rest hw =>
      have hshort := hs.reports w _ hw
      rw [rank, rank, reportRank_inside hs.excl hw,
        reportRank_inside (Sections.exclusive_goOn hs.excl hw) (Mutex.inside_goOn_self _ _ _)]
      rw [List.length_cons] at hshort ⊢
      dsimp only
      omega
  | throws w rest hw =>
      rw [rank, rank, halive]
      simp only [Bool.false_eq_true, if_false, if_true]
      omega
  | enqueues c wake sub ws hi hc hwake =>
      simp only [shows, hc, Option.map_some, reduceCtorEq] at ha
  | leaves | stops | requeues | notifies | unlocksCollector | owns =>
      simp only [shows, reduceCtorEq] at ha

/-- The steps of the atomic pool that are left, with those a job on its way
    into the deque will bring. -/
def credit (s : State n) (q : Queue) : Nat :=
  Shutdown.work (setData s.pool q) + 9 * (s.offered.length - s.pool.accepted.length)

/-- What an action adds to that, itself included. -/
def charge : Action n → Nat
  | .call _ _ => 10
  | .own (.wakeSpuriously _) => 2
  | .own (.execute _ res _ _) => if res.preempted then 5 else 0
  | _ => 0

/-- An execution that ends with the job preempted. -/
def preempts : Action n → Bool
  | .own (.execute _ res _ _) => res.preempted
  | _ => false

/-- How many steps of its own a state is worth at most. -/
def Worth (sched : Scheduler) (observers : List Observer) (s : State n) (m : Nat) : Prop :=
  ∃ q, Atomic sched s q ∧ Brief observers s ∧
    m = grain observers * credit s q + (grain observers - rank observers s)

theorem offered_moves {a : Action n} (h : Moves sched observers s a t)
    (hcall : ∀ c sub, a ≠ .call c sub) : t.offered = s.offered := by
  cases h with
  | calls c sub => exact absurd rfl (hcall c sub)
  | _ => rfl

/-- A job on its way into the deque is not yet accepted. -/
theorem accepted_lt (hf : Fresh s) (hb : s.pool.accepted.Nodup) {c : Nat} {sub : Submission}
    (hc : s.clients c = some sub) : s.pool.accepted.length < s.offered.length := by
  have hnodup : (s.pool.accepted ++ [sub.job]).Nodup := hb.append (List.nodup_singleton _)
    (List.disjoint_singleton.mpr (not_accepted hf hc))
  have hsubset : s.pool.accepted ++ [sub.job] ⊆ s.offered := by
    intro a ha
    rcases List.mem_append.mp ha with hold | hnew
    · exact hf.known a hold
    · rw [List.mem_singleton.mp hnew]
      exact hf.offered c sub hc
  have hle := (hnodup.subperm hsubset).length_le
  rw [List.length_append, List.length_singleton] at hle
  exact hle

/-- A step of the atomic pool uses up credit. -/
theorem credit_follows {q r : Queue} {a : Action n} {e : Shutdown.Action n}
    (hq : Atomic sched s q) (hs : Brief observers s) (h : Moves sched observers s a t)
    (he : shows s a = some e)
    (hr : Shutdown.step sched (setData s.pool q) e = some (setData t.pool r)) :
    credit t r + 1 ≤ credit s q + charge a := by
  have hwork := Shutdown.work_moves (Shutdown.moves_of_step hr)
  cases h with
  | enqueues c wake sub ws hi hc hwake =>
      have hpending := accepted_lt hq.fresh hs.accepted hc
      rw [shows, hc, Option.map_some, Option.some.injEq] at he
      subst he
      have hlength : (s.pool.accepted ++ [sub.job]).length = s.pool.accepted.length + 1 :=
        List.length_append
      simp only [credit, charge, Shutdown.price] at hwork ⊢
      rw [hlength]
      omega
  | owns b p hb hp =>
      rw [shows, Option.some.injEq] at he
      subst he
      have hsame : p.accepted = s.pool.accepted :=
        Pool.accepted_of_moves hp (by rintro sub wake rfl; exact Bool.false_ne_true hb)
      have hcharge : Shutdown.price (.pool b) = charge (.own b) := by
        cases b with
        | enqueue => exact absurd hb Bool.false_ne_true
        | _ => rfl
      rw [hcharge] at hwork
      simp only [credit] at hwork ⊢
      rw [hsame]
      omega
  | leaves w out p hi hp =>
      rw [shows, Option.some.injEq] at he
      subst he
      have hsame : p.accepted = s.pool.accepted := by
        cases out <;> simp only [afterDequeue, Option.some.injEq, reduceCtorEq] at hp <;>
          exact hp ▸ rfl
      simp only [credit, charge, Shutdown.price] at hwork ⊢
      rw [hsame]
      omega
  | unlocksCollector w p hw hp =>
      rw [shows, Option.some.injEq] at he
      subst he
      have hsame : p.accepted = s.pool.accepted := by
        cases hp with
        | reports => rfl
      simp only [credit, charge, Shutdown.price] at hwork ⊢
      rw [hsame]
      omega
  | stops | requeues | notifies =>
      rw [shows, Option.some.injEq] at he
      subst he
      simp only [credit, charge, Shutdown.price] at hwork ⊢
      omega
  | calls | locks | acts | unlocks | locksCollector | puts | throws =>
      simp only [shows, reduceCtorEq] at he

/-- A step uses up what the state is worth. -/
theorem worth_moves {m : Nat} {a : Action n} (hs : Worth sched observers s m)
    (halive : s.terminated = false) (h : Moves sched observers s a t) :
    ∃ m', Worth sched observers t m' ∧ m' + 1 ≤ m + grain observers * charge a := by
  rcases hs with ⟨q, hq, hb, rfl⟩
  have hnext := brief_moves hq hb h
  have hrank : rank observers s < grain observers := rank_lt s
  have hrank' : rank observers t < grain observers := rank_lt t
  cases he : shows s a with
  | some e =>
      rcases atomic_follows hq h he with ⟨r, hr, ht⟩
      have hmul := Nat.mul_le_mul_left (grain observers) (credit_follows hq hb h he hr)
      rw [Nat.mul_add, Nat.mul_add, Nat.mul_one] at hmul
      exact ⟨_, ⟨r, ht, hnext, rfl⟩, by omega⟩
  | none =>
      rcases atomic_silent hq h he with ⟨ht, hpool⟩
      refine ⟨_, ⟨q, ht, hnext, rfl⟩, ?_⟩
      have hwork : Shutdown.work (setData t.pool q) = Shutdown.work (setData s.pool q) :=
        congrArg Shutdown.work hpool
      have haccepted : t.pool.accepted = s.pool.accepted := by
        rw [← accepted_setData t.pool q, hpool, accepted_setData]
      by_cases hcall : ∃ c sub, a = .call c sub
      · rcases hcall with ⟨c, sub, rfl⟩
        have hoffered : t.offered.length = s.offered.length + 1 := by
          cases h with
          | calls => exact List.length_append
        have hcredit : credit t q ≤ credit s q + 9 := by
          rw [credit, credit, hwork, haccepted, hoffered]
          omega
        have hmul := Nat.mul_le_mul_left (grain observers) hcredit
        rw [Nat.mul_add] at hmul
        simp only [charge]
        omega
      · have hno : ∀ c sub, a ≠ .call c sub := fun c sub heq => hcall ⟨c, sub, heq⟩
        have hfurther := rank_silent hq hb halive h he hno
        have hcredit : credit t q = credit s q := by
          rw [credit, credit, hwork, haccepted, offered_moves h hno]
        rw [hcredit]
        omega

/-! ## The pool comes to rest -/

/-- What every step preserves. -/
structure Sound (sched : Scheduler) (observers : List Observer) (s : State n) (q : Queue)
    (rs : List JobResult) : Prop where
  atomic : Atomic sched s q
  reporting : Reporting observers rs s
  brief : Brief observers s
  living : Shutdown.Living (setData s.pool q)

theorem sound_step {q : Queue} {rs : List JobResult} {a : Action n}
    (hs : Sound sched observers s q rs) (h : Moves sched observers s a t) :
    ∃ r rs', Sound sched observers t r rs' := by
  have hreporting := reporting_moves hs.atomic hs.reporting h
  have hbrief := brief_moves hs.atomic hs.brief h
  cases he : shows s a with
  | some e =>
      rcases atomic_follows hs.atomic h he with ⟨r, hr, ht⟩
      exact ⟨r, _, ht, hreporting, hbrief,
        Shutdown.living_moves hs.living (Shutdown.moves_of_step hr)⟩
  | none =>
      rcases atomic_silent hs.atomic h he with ⟨ht, hpool⟩
      exact ⟨q, _, ht, hreporting, hbrief, hpool ▸ hs.living⟩

theorem sound_run {actions : List (Action n)}
    (h : Lts.run (step sched observers) (init n) actions = some s) :
    ∃ q rs, Sound sched observers s q rs := by
  refine Lts.run_invariant (P := fun s => ∃ q rs, Sound sched observers s q rs) ?_ ?_ h
  · rintro u a v ⟨q, rs, hu⟩ hv
    exact sound_step hu (moves_of_step hv)
  · exact ⟨⟨[], false⟩, [], atomic_init n, reporting_init n, brief_init n,
      Shutdown.living_init⟩

/-- The engine's own steps cost nothing, but for the executions that are preempted. -/
theorem charge_own {a : Action n} (h : Own a) :
    charge a = 5 * if preempts a then 1 else 0 := by
  cases a with
  | call c sub => exact absurd h not_false
  | own b => cases b with
    | wakeSpuriously w => exact absurd h not_false
    | execute w res pid uniqueId =>
        rw [charge, preempts]
        split
        · rfl
        · rfl
    | _ => rfl
  | _ => rfl

theorem cost_own {actions : List (Action n)} (h : ∀ a ∈ actions, Own a) :
    Lts.cost (fun a => grain observers * charge a) actions
      = 5 * grain observers * actions.countP preempts := by
  induction actions with
  | nil => rfl
  | cons a actions ih =>
      rw [Lts.cost, List.countP_cons, charge_own (h a List.mem_cons_self),
        ih fun b hb => h b (List.mem_cons_of_mem a hb), Nat.mul_left_comm, ← Nat.mul_assoc,
        ← Nat.mul_add, Nat.add_comm]

/-- Nothing is left to do. -/
structure AtRest (s : State n) : Prop where
  /-- Both mutexes are free, and no client waits for one. -/
  free : s.queue.holder = none ∧ s.collector.holder = none ∧ ∀ c, s.clients c = none
  /-- If nobody called `stop`, all workers are blocked in `cv_.wait`, and every
      job was reported once and its promise set. -/
  served : s.pool.stopper = .notCalled → (∀ w, s.pool.workers w = .waiting) ∧ Drained s.pool
  /-- Otherwise `stop` has returned. -/
  returned : s.pool.stopper ≠ .notCalled → s.pool.stopper = .returned

theorem atRest_of_stuck {q : Queue} {rs : List JobResult} (hn : 0 < n)
    (hs : Sound sched observers s q rs) (halive : s.terminated = false)
    (h : Lts.Stuck (step sched observers) Own s) : AtRest s := by
  have hrest := resting_of_stuck hs.atomic hs.reporting halive h
  have hliving : Shutdown.Living s.pool := by
    have hdata := Sections.eq_of_free hs.atomic.covers hs.atomic.excl hrest.queue
    have hpool := hs.living
    rw [← hdata] at hpool
    exact hpool
  refine ⟨⟨hrest.queue, hrest.collector, hrest.clients⟩, fun hopen => ?_, fun hcalled => ?_⟩
  · exact Shutdown.drained_of_stuck hliving hn hopen hrest.pool
  · exact Shutdown.returned_of_stuck hliving hcalled hrest.pool

/-- Where no execution can end without a preemption, none can end at all. -/
theorem stuck_of_free
    (h : Lts.Stuck (step sched observers) (fun a => Own a ∧ preempts a = false) s) :
    Lts.Stuck (step sched observers) Own s := by
  intro a ha
  cases hp : preempts a with
  | false => exact h a ⟨ha, hp⟩
  | true =>
      refine Option.eq_none_iff_forall_ne_some.mpr fun t ht => ?_
      unfold preempts at hp
      split at hp
      · rename_i w res pid uniqueId
        have halive : s.terminated = false := by
          by_contra hdead
          rw [step, if_pos (Bool.not_eq_false _ ▸ hdead)] at ht
          simp only [reduceCtorEq] at ht
        cases moves_of_step ht with
        | owns b p hb hmoves =>
            have hnone := h (.own (.execute w {} pid uniqueId)) ⟨trivial, rfl⟩
            simp only [step_alive halive, stepAlive, needsNoMutex, if_true,
              Option.map_eq_none_iff] at hnone
            cases hmoves with
            | preempts w job res pid uniqueId hw | finishes w job res pid uniqueId hw =>
                simp only [Pool.step, hw, reduceCtorEq] at hnone
      · exact Bool.false_ne_true hp

/-- For any number of clients and of workers, one at least, whose executions
    return, and any interleaving of their accesses: a state in which nobody can
    go on is at rest, an engine that is left to itself takes boundedly many
    steps, but for the preemptions, and from any moment it can get to rest,
    unless an exception of an observer ends it. -/
theorem served_by_locks (sched : Scheduler) (observers : List Observer) (n : Nat) (hn : 0 < n)
    (actions : List (Action n)) (s : State n)
    (h : Lts.run (step sched observers) (init n) actions = some s) :
    (s.terminated = false → Lts.Stuck (step sched observers) Own s → AtRest s) ∧
    (∃ bound, ∀ more t, (∀ a ∈ more, Own a) → Lts.run (step sched observers) s more = some t →
      more.length ≤ bound + 5 * grain observers * more.countP preempts) ∧
    ∃ more t, (∀ a ∈ more, Own a) ∧ Lts.run (step sched observers) s more = some t ∧
      (t.terminated = true ∨ AtRest t) := by
  rcases sound_run h with ⟨q, rs, hs⟩
  have halive : ∀ (u : State n) a v, step sched observers u a = some v →
      u.terminated = false := by
    intro u a v hv
    rw [step] at hv
    split at hv
    · simp only [reduceCtorEq] at hv
    · rename_i hdead
      exact Bool.eq_false_iff.mpr hdead
  have hworth : Worth sched observers s _ := ⟨q, hs.atomic, hs.brief, rfl⟩
  refine ⟨fun ha hstuck => atRest_of_stuck hn hs ha hstuck,
    ⟨grain observers * credit s q + (grain observers - rank observers s),
      fun more t hown hr => ?_⟩, ?_⟩
  · rcases Lts.length_add_le_of_worth (fun u m a v hu hv =>
      worth_moves hu (halive u a v hv) (moves_of_step hv)) hworth hr with ⟨m, _, hle⟩
    rw [cost_own hown] at hle
    exact Nat.le_trans (Nat.le_add_right _ m) hle
  · have hfree : ∀ u m (a : Action n) v, Worth sched observers u m →
        (Own a ∧ preempts a = false) → step sched observers u a = some v →
        ∃ m' < m, Worth sched observers v m' := by
      intro u m a v hu ha hv
      rcases worth_moves hu (halive u a v hv) (moves_of_step hv) with ⟨m', hm', hle⟩
      have hcost : charge a = 0 := by rw [charge_own ha.1, ha.2]; rfl
      rw [hcost, Nat.mul_zero, Nat.add_zero] at hle
      exact ⟨m', hle, hm'⟩
    rcases Lts.exists_stuck_of_worth hfree hworth with ⟨more, t, hall, hr, hstuck⟩
    refine ⟨more, t, fun a ha => (hall a ha).1, hr, ?_⟩
    rcases sound_run (Lts.run_append.mpr ⟨s, h, hr⟩) with ⟨r, rs', ht⟩
    cases hdead : t.terminated with
    | true => exact .inl rfl
    | false => exact .inr (atRest_of_stuck hn ht hdead (stuck_of_free hstuck))

/-- A worker is in the middle of `dequeue`, and a job in the deque. -/
theorem served_by_locks_handover : ∃ s : State 1, s.queue.holder = some (.worker 0) ∧
    ∃ more t, (∀ a ∈ more, Own a) ∧
      Lts.run (step .fcfs mainObservers) s more = some t ∧ (t.terminated = true ∨ AtRest t) := by
  have hrun : (Lts.run (step .fcfs mainObservers) (init 1) (handover 0)).map
      (fun s => s.queue.holder) = some (some (.worker 0)) := by decide
  rcases Option.map_eq_some_iff.mp hrun with ⟨s, hs, hholder⟩
  exact ⟨s, hholder, (served_by_locks .fcfs mainObservers 1 (by decide) (handover 0) s hs).2.2⟩

end Locks

end Isolyx
