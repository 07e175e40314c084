import Isolyx.Theory.Containment
import Isolyx.Theory.Transparency

/-!
# What a Verdict Tells

`workerLoop` reads the verdict off the wait status alone: signal 9 is shown as
a timeout. But the status does not say who sent the signal. A timeout, an
anomaly, the kernel short of memory and the destructor of a limiter all end the
process by the same `SIGKILL`.

The steps here are those of a job's life with their causes told apart, and a
history beside the state that keeps the one that ended the process. No step
reads it. A process ends once, so the history is written once, and what the
verdict says about it is settled at that step: the result carries the status
through every later burst and phase (`told_moves`). The verdict is true of the
history exactly when no `SIGKILL` but the timeout's ended the process.

## Main definitions

* `Cause`: What can end a job's process.
* `Event`: A step of the job's life, with the killers told apart.
* `step`: The transition function, with the history.
* `Truthful`: A verdict of timeout means a timeout, and other ends have others.
* `Fair`: The step ends the process by no `SIGKILL` but the timeout's.

## Theorems

* `verdictOf_resultOf`: Every `SIGKILL` reads as a timeout.
* `told_moves`: The result agrees with the history.
* `misled_of_unfair`: An unfair step leaves a cause no verdict will tell.
* `truthful_iff_fair`: A submitted verdict is truthful exactly when all steps
  were fair.
* `anomaly_reads_timeout`: A job killed for an anomaly is shown as timed out.
-/

namespace Isolyx

namespace Diagnosis

open Lifecycle (Config Phase Process WaitStatus Moves moves_of_step resultOf resultOf_preempted)

/-- What can end a job's process. -/
inductive Cause where
  | exited (code : UInt8)
  /-- A signal it raises itself. -/
  | raised (sig : Nat)
  | timeoutWatchdog
  | anomalyWatchdog
  /-- The kernel, out of memory in the cgroup. -/
  | outOfMemory
  /-- The destructor of a limiter. -/
  | limiter
  deriving DecidableEq, Repr

/-- What `waitpid` reports. -/
def Cause.status : Cause → WaitStatus
  | exited code => .exited code
  | raised sig => .signaled sig
  | timeoutWatchdog | anomalyWatchdog | outOfMemory | limiter => .signaled 9

/-- A step of the job's life, with the killers told apart. -/
inductive Event where
  | timeoutFires
  | anomalyFires
  | outOfMemory
  | raises (sig : Nat)
  | other (a : Lifecycle.Action)
  deriving DecidableEq, Repr

def Event.action : Event → Lifecycle.Action
  | timeoutFires | anomalyFires => .fires
  | outOfMemory => .dies 9
  | raises sig => .dies sig
  | other a => a

/-- What ended the process, if this step did. -/
def Event.cause : Event → Option Cause
  | timeoutFires => some .timeoutWatchdog
  | anomalyFires => some .anomalyWatchdog
  | outOfMemory => some .outOfMemory
  | raises sig => some (.raised sig)
  | other (.exits code) => some (.exited code)
  | other .destroyLimiter => some .limiter
  | other _ => none

/-- A killer that is not told apart. -/
def Event.anonymous : Event → Bool
  | other .fires | other (.dies _) => true
  | _ => false

structure State where
  job : Lifecycle.State
  /-- What ended the process. -/
  cause : Option Cause
  /-- The `TimeoutWatchdog` fired before the process ended. -/
  fired : Bool

/-- The history after a step. -/
def record (s : State) (e : Event) (job : Lifecycle.State) : State where
  job := job
  cause := if s.job.process.alive && !job.process.alive then e.cause else s.cause
  fired := s.fired || (decide (e = .timeoutFires) && s.job.process.alive)

def step (cfg : Config) (s : State) (e : Event) : Option State :=
  if e.anonymous then none else (Lifecycle.step cfg s.job e.action).map (record s e)

def init (dir : Nat) : State := ⟨Lifecycle.init dir, none, false⟩

/-- A verdict of timeout means that the timeout came before the end, and a job
    that an anomaly, the memory limit or its own signal ended gets another. -/
structure Truthful (s : State) : Prop where
  timeout : ∀ r, s.job.phase = .done r → verdictOf r = .timeout → s.fired = true
  others : ∀ r c, s.job.phase = .done r → s.cause = some c →
    (c = .anomalyWatchdog ∨ c = .outOfMemory ∨ ∃ sig, c = .raised sig) → verdictOf r ≠ .timeout

/-- The step ends the process by no `SIGKILL` but that of the timeout. -/
def Fair (s : State) : Event → Prop
  | .anomalyFires | .outOfMemory => s.job.process.alive = false
  | .raises sig => sig ≠ 9
  | .other .destroyLimiter => s.job.held = false ∨ s.job.process.alive = false
  | _ => True

variable {cfg : Config} {s t : State} {e : Event} {job : Lifecycle.State}

theorem step_moves (h : step cfg s e = some t) :
    e.anonymous = false ∧ Moves cfg s.job e.action t.job ∧ t = record s e t.job := by
  simp only [step, Option.ite_none_left_eq_some, Bool.not_eq_true, Option.map_eq_some_iff] at h
  rcases h with ⟨he, job, hjob, rfl⟩
  exact ⟨he, moves_of_step hjob, rfl⟩

/-- Signal 9 reads as a timeout, and nothing else does. -/
theorem verdictOf_resultOf (w : WaitStatus) :
    verdictOf (resultOf w) = .timeout ↔ w = .signaled 9 := by
  cases w with
  | exited code =>
      by_cases hcode : (code == 0) = true
      · simp [verdictOf, resultOf, hcode]
      · simp [verdictOf, resultOf, hcode]
  | signaled sig =>
      by_cases hsig : sig = 9
      · simp [verdictOf, resultOf, hsig]
      · have hne : ¬ (sig : Int) = 9 := by omega
        have hverdict : verdictOf (resultOf (.signaled sig)) = if (sig : Int) = 9 then .timeout
            else if (sig : Int) = 31 then .seccompViolation
            else if (sig : Int) ≠ 0 then .killed else .failed := rfl
        rw [hverdict, if_neg hne]
        split_ifs <;> simp [hsig]

/-- The final result, once the wait has seen the end. -/
def outcome : Phase → Option ExecutionResult
  | .ended r | .returned r | .unwatched r | .done r => if r.preempted then none else some r
  | _ => none

/-! ## What the history tells -/

/-- The process, the result and the history agree. -/
structure Told (s : State) : Prop where
  /-- A process that ended does not come back. -/
  ended : ∀ c, s.cause = some c → s.job.launched = true ∧ s.job.process.alive = false
  zombie : ∀ w, s.job.process = .zombie w → ∃ c, s.cause = some c ∧ c.status = w
  outcome : ∀ r, outcome s.job.phase = some r →
    ∃ c, s.cause = some c ∧ verdictOf r = verdictOf (resultOf c.status)
  launched : s.job.process.alive = true → s.job.launched = true
  fired : s.fired = true ↔ s.cause = some .timeoutWatchdog

/-- While the process lives nothing has ended it. -/
theorem Told.cause_none (hs : Told s) (h : s.job.process.alive = true) : s.cause = none := by
  cases hc : s.cause with
  | none => rfl
  | some c =>
      rw [(hs.ended c hc).2] at h
      exact absurd h Bool.false_ne_true

/-- A step that neither ends the process nor finds a result. -/
theorem Told.keep (hs : Told s) (hlaunched : job.launched = s.job.launched)
    (halive : job.process.alive = s.job.process.alive)
    (hzombie : ∀ w, job.process = .zombie w → s.job.process = .zombie w)
    (houtcome : ∀ r, Diagnosis.outcome job.phase = some r →
      ∃ q, Diagnosis.outcome s.job.phase = some q ∧ verdictOf r = verdictOf q)
    (he : e ≠ .timeoutFires ∨ s.job.process.alive = false) : Told (record s e job) := by
  have hcause : (record s e job).cause = s.cause := by
    rw [record, halive, Bool.and_not_self, if_neg Bool.false_ne_true]
  have hfired : (record s e job).fired = s.fired := by
    rcases he with he | he <;> simp [record, he]
  refine ⟨fun c hc => ?_, fun w hw => ?_, fun r hr => ?_, fun h => ?_, ?_⟩
  · rw [hcause] at hc
    exact ⟨hlaunched.trans (hs.ended c hc).1, halive.trans (hs.ended c hc).2⟩
  · rw [hcause]
    exact hs.zombie w (hzombie w hw)
  · rw [hcause]
    rcases houtcome r hr with ⟨q, hq, hverdict⟩
    rcases hs.outcome q hq with ⟨c, hc, hqc⟩
    exact ⟨c, hc, hverdict.trans hqc⟩
  · exact hlaunched.trans (hs.launched (halive.symm.trans h))
  · rw [hcause, hfired]
    exact hs.fired

/-- A step that ends the living process, for a cause of its own. -/
theorem Told.finish (hs : Told s) {c : Cause} (halive : s.job.process.alive = true)
    (hlaunched : job.launched = s.job.launched) (hprocess : job.process = .zombie c.status)
    (houtcome : ∀ r, Diagnosis.outcome job.phase = some r →
      ∃ q, Diagnosis.outcome s.job.phase = some q) (hc : e.cause = some c)
    (he : e = .timeoutFires ↔ c = .timeoutWatchdog) : Told (record s e job) := by
  have hnone := hs.cause_none halive
  have hdead : job.process.alive = false := by rw [hprocess]; rfl
  have hcause : (record s e job).cause = some c := by simp [record, halive, hdead, hc]
  have hfired : (record s e job).fired = true ↔ e = .timeoutFires := by
    have hold : s.fired = false := Bool.eq_false_iff.mpr fun h => by
      rw [hs.fired, hnone] at h
      exact absurd h (by simp)
    simp [record, halive, hold]
  refine ⟨fun d _ => ⟨hlaunched.trans (hs.launched halive), hdead⟩, fun w hw => ⟨c, hcause, ?_⟩,
    fun r hr => ?_, fun h => ?_, ?_⟩
  · exact Process.zombie.inj (hprocess.symm.trans hw)
  -- no result was found while it lived
  · rcases houtcome r hr with ⟨q, hq⟩
    rcases hs.outcome q hq with ⟨d, hd, _⟩
    exact absurd (hnone.symm.trans hd) (by simp)
  · exact absurd (hdead.symm.trans h) Bool.false_ne_true
  · rw [hfired, hcause, Option.some.injEq]
    exact he

/-- The process is cloned. -/
theorem Told.clone (hs : Told s) (hl : s.job.launched = false) (he : e ≠ .timeoutFires) :
    Told (record s e { s.job with
      phase := .cloned, launched := true, process := .entering, home := s.job.rootfs }) := by
  have hnone : s.cause = none := by
    cases hc : s.cause with
    | none => rfl
    | some c => exact absurd (hl.symm.trans (hs.ended c hc).1) Bool.false_ne_true
  refine ⟨fun c hc => ?_, fun w hw => absurd hw (by simp [record]),
    fun r hr => absurd hr (by simp [record, Diagnosis.outcome]), fun _ => rfl, ?_⟩
  · simp [record, Process.alive, hnone] at hc
  · simpa [record, Process.alive, he] using hs.fired

/-- The wait sees the end of the process. -/
theorem Told.reap (hs : Told s) {w : WaitStatus} (hw : s.job.process = .zombie w)
    (he : e ≠ .timeoutFires) :
    Told (record s e { s.job with phase := .ended (resultOf w), process := .reaped }) := by
  rcases hs.zombie w hw with ⟨c, hc, hstatus⟩
  have hcause : (record s e { s.job with phase := .ended (resultOf w), process := .reaped }).cause
      = s.cause := by simp [record, hw, Process.alive]
  have hfired : (record s e { s.job with phase := .ended (resultOf w), process := .reaped }).fired
      = s.fired := by simp [record, he]
  refine ⟨fun d hd => ⟨(hs.ended c hc).1, rfl⟩, fun v hv => absurd hv (by simp [record]),
    fun r hr => ⟨c, hcause.trans hc, ?_⟩, fun h => absurd h (by simp [record, Process.alive]), ?_⟩
  · simp only [record, Diagnosis.outcome, resultOf_preempted, Bool.false_eq_true, if_false,
      Option.some.injEq] at hr
    rw [← hr, hstatus]
  · rw [hfired, hcause]
    exact hs.fired

theorem told_moves (hs : Told s) (ha : e.anonymous = false) (h : Moves cfg s.job e.action job) :
    Told (record s e job) := by
  -- the four killers: the process ends if it was alive
  have hkill : ∀ c : Cause, c.status = .signaled 9 → e.cause = some c →
      (e = .timeoutFires ↔ c = .timeoutWatchdog) →
      Told (record s e { s.job with process := s.job.process.kill }) := by
    intro c hstatus hc he
    by_cases halive : s.job.process.alive = true
    · refine hs.finish halive rfl ?_ (fun r hr => ⟨r, hr⟩) hc he
      rw [Process.kill, if_pos halive, hstatus]
    · have hdead := Bool.eq_false_iff.mpr halive
      rw [Process.kill_of_not_alive hdead]
      exact hs.keep rfl rfl (fun _ h => h) (fun r hr => ⟨r, hr, rfl⟩) (Or.inr hdead)
  have hdie : ∀ c : Cause, s.job.process.alive = true → e.cause = some c →
      (e = .timeoutFires ↔ c = .timeoutWatchdog) →
      Told (record s e { s.job with process := .zombie c.status }) :=
    fun c halive hc he => hs.finish halive rfl rfl (fun r hr => ⟨r, hr⟩) hc he
  cases e with
  | timeoutFires =>
      cases h with
      | fires hw hz => exact hkill .timeoutWatchdog rfl rfl (by simp)
  | anomalyFires =>
      cases h with
      | fires hw hz => exact hkill .anomalyWatchdog rfl rfl (by simp)
  | outOfMemory =>
      cases h with
      | dies _ hz he => exact hdie .outOfMemory hz rfl (by simp)
  | raises sig =>
      cases h with
      | dies _ hz he => exact hdie (.raised sig) hz rfl (by simp)
  | other a =>
      have hother : Event.other a ≠ .timeoutFires := by simp
      have hkeep : ∀ {u : Lifecycle.State}, u.launched = s.job.launched →
          u.process.alive = s.job.process.alive →
          (∀ w, u.process = .zombie w → s.job.process = .zombie w) →
          (∀ r, outcome u.phase = some r →
            ∃ q, outcome s.job.phase = some q ∧ verdictOf r = verdictOf q) →
          Told (record s (.other a) u) :=
        fun h₁ h₂ h₃ h₄ => hs.keep h₁ h₂ h₃ h₄ (Or.inl hother)
      cases h with
      | dequeues hp => exact hkeep rfl rfl (fun _ h => h) (by simp [Lifecycle.begin, outcome])
      | clones hp hl => exact hs.clone hl hother
      | applies hp => exact hkeep rfl rfl (fun _ h => h) (by simp [outcome])
      | starts hp => exact hkeep rfl rfl (fun _ h => h) (by simp [outcome])
      | syncs hp =>
          exact hkeep rfl (Process.enter_alive _) (fun _ h => Process.enter_eq_zombie h)
            (by simp [outcome])
      | resumes hp hl =>
          exact hkeep rfl (Process.continueGroup_alive _)
            (fun _ h => Process.continueGroup_eq_zombie h) (by simp [outcome])
      | pollsEnd elapsed status hp hq hz => exact hs.reap hz hother
      | pollsStop elapsed leader hp hq hz =>
          refine hkeep rfl ?_ (by simp) (by simp [outcome])
          rw [hz]
          rfl
      | pollsExpired elapsed hp hq =>
          exact hkeep rfl (Process.stopGroup_alive _) (fun _ h => Process.stopGroup_eq_zombie h)
            (by simp [outcome])
      | pollsOn elapsed hp hq => exact hkeep rfl rfl (fun _ h => h) (by simp [outcome])
      | waits elapsed status hp hz => exact hs.reap hz hother
      | collects r hp =>
          refine hkeep rfl rfl (fun _ h => h) fun q hq => ⟨r, ?_, ?_⟩
          · simp only [Lifecycle.collect, outcome] at hq
            cases hpre : r.preempted <;> simp [hpre] at hq
            simp [hp, outcome, hpre]
          -- what was collected is no part of the verdict
          · simp only [Lifecycle.collect, outcome] at hq
            cases hpre : r.preempted <;> simp [hpre] at hq
            rw [← hq]
            rfl
      | unwatches r hp =>
          exact hkeep rfl rfl (fun _ h => h) fun q hq => ⟨q, by rw [hp]; exact hq, rfl⟩
      | leaves r hp =>
          have houtcome : ∀ q, outcome (Lifecycle.leave s.job r).phase = some q →
              outcome s.job.phase = some q := by
            intro q hq
            simp only [Lifecycle.leave] at hq
            rw [hp]
            cases hpre : r.preempted <;> simp [hpre, outcome] at hq ⊢
            exact hq
          by_cases hheld : s.job.held = true ∧ s.job.process.alive = true
          -- the process is in the cgroup whose limiter goes
          · refine hs.finish hheld.2 rfl ?_ (fun q hq => ⟨q, houtcome q hq⟩) rfl (by simp)
            simp only [Lifecycle.leave, hheld.1, if_true, Process.kill, hheld.2]
            rfl
          · have hprocess : (Lifecycle.leave s.job r).process = s.job.process := by
              simp only [Lifecycle.leave]
              split
              · rename_i hh
                exact Process.kill_of_not_alive (Bool.eq_false_iff.mpr fun h => hheld ⟨hh, h⟩)
              · rfl
            exact hkeep rfl (by rw [hprocess]) (fun w h => hprocess ▸ h)
              fun q hq => ⟨q, houtcome q hq, rfl⟩
      | fires hw hz => exact absurd ha (by simp [Event.anonymous])
      | works w hz => exact hkeep rfl rfl (fun _ h => h) fun q hq => ⟨q, hq, rfl⟩
      | exits code hz => exact hdie (.exited code) (Process.alive_of_runnable hz) rfl (by simp)
      | dies sig hz he => exact absurd ha (by simp [Event.anonymous])
      | groups leader hz =>
          exact hkeep rfl (Process.alive_of_runnable hz).symm (by simp) fun q hq => ⟨q, hq, rfl⟩
      | continues leader reported hz =>
          refine hkeep rfl ?_ (by simp) fun q hq => ⟨q, hq, rfl⟩
          rw [hz]
          rfl
      | changes dir => exact hkeep rfl rfl (fun _ h => h) fun q hq => ⟨q, hq, rfl⟩

/-! ## Ends that are misread -/

/-- The process ended by a `SIGKILL` that no timeout sent. -/
def Misled (s : State) : Prop :=
  ∃ c, s.cause = some c ∧ c ≠ .timeoutWatchdog ∧ c.status = .signaled 9

theorem misled_of_unfair (ha : e.anonymous = false) (h : Moves cfg s.job e.action job)
    (hg : ¬ Fair s e) : Misled (record s e job) := by
  have hkill : ∀ {c : Cause}, s.job.process.alive = true → job.process.alive = false →
      e.cause = some c → c ≠ .timeoutWatchdog → c.status = .signaled 9 →
      Misled (record s e job) := by
    intro c halive hdead hc hne hstatus
    exact ⟨c, by simp [record, halive, hdead, hc], hne, hstatus⟩
  cases e with
  | timeoutFires => exact absurd trivial hg
  | anomalyFires =>
      have halive : s.job.process.alive = true := by simpa [Fair] using hg
      cases h with
      | fires hw hz =>
          exact hkill (c := .anomalyWatchdog) halive (Process.kill_alive _) rfl (by simp) rfl
  | outOfMemory =>
      cases h with
      | dies _ hz he => exact hkill (c := .outOfMemory) hz rfl rfl (by simp) rfl
  | raises sig =>
      have hsig : sig = 9 := by simpa [Fair] using hg
      cases h with
      | dies _ hz he => exact hkill (c := .raised sig) hz rfl rfl (by simp) (by rw [hsig]; rfl)
  | other a =>
      cases h with
      | leaves r hp =>
          simp only [Fair, not_or, Bool.not_eq_false] at hg
          refine hkill (c := .limiter) hg.2 ?_ rfl (by simp) rfl
          simp only [Lifecycle.leave, hg.1, if_true, Process.kill_alive]
      | fires hw hz => exact absurd ha (by simp [Event.anonymous])
      | dies sig hz he => exact absurd ha (by simp [Event.anonymous])
      | _ => exact absurd trivial hg

/-- What ended the process stays what ended it. -/
theorem misled_moves (hs : Told s) (hm : Misled s) : Misled (record s e job) := by
  rcases hm with ⟨c, hc, hne, hstatus⟩
  refine ⟨c, ?_, hne, hstatus⟩
  simp [record, (hs.ended c hc).2, hc]

/-- A fair step leaves no cause to misread. -/
theorem fair_moves (hm : ¬ Misled s) (ha : e.anonymous = false)
    (h : Moves cfg s.job e.action job) (hg : Fair s e) : ¬ Misled (record s e job) := by
  -- a step that ends nothing leaves the cause as it was
  have hkeep : (s.job.process.alive && !job.process.alive) = false → ¬ Misled (record s e job) := by
    intro hstays
    simpa [Misled, record, hstays] using hm
  have hnone : e.cause = none → ¬ Misled (record s e job) := by
    rintro hc ⟨d, hd, hne, hstatus⟩
    by_cases hends : (s.job.process.alive && !job.process.alive) = true
    · simp [record, hends, hc] at hd
    · exact hkeep (Bool.eq_false_iff.mpr hends) ⟨d, hd, hne, hstatus⟩
  have hcause : ∀ {c : Cause}, e.cause = some c → (c = .timeoutWatchdog ∨ c.status ≠ .signaled 9) →
      ¬ Misled (record s e job) := by
    rintro c hc hfair ⟨d, hd, hne, hstatus⟩
    by_cases hends : (s.job.process.alive && !job.process.alive) = true
    · simp only [record, hends, if_true, hc, Option.some.injEq] at hd
      rcases hfair with hfair | hfair
      · exact hne (hd ▸ hfair)
      · exact hfair (hd ▸ hstatus)
    · exact hkeep (Bool.eq_false_iff.mpr hends) ⟨d, hd, hne, hstatus⟩
  cases e with
  | timeoutFires => exact hcause (c := .timeoutWatchdog) rfl (Or.inl rfl)
  | anomalyFires => exact hkeep (by rw [show s.job.process.alive = false from hg]; rfl)
  | outOfMemory => exact hkeep (by rw [show s.job.process.alive = false from hg]; rfl)
  | raises sig =>
      exact hcause (c := .raised sig) rfl (Or.inr fun h => hg (WaitStatus.signaled.inj h))
  | other a =>
      cases h with
      | leaves r hp =>
          refine hkeep ?_
          rcases hg with hg | hg
          · simp [Lifecycle.leave, hg]
          · rw [hg]
            rfl
      | exits code hz => exact hcause (c := .exited code) rfl (Or.inr (by simp [Cause.status]))
      | fires hw hz => exact absurd ha (by simp [Event.anonymous])
      | dies sig hz he => exact absurd ha (by simp [Event.anonymous])
      | _ => exact hnone rfl

/-! ## Verdicts -/

theorem told_step (hs : Told s) (h : step cfg s e = some t) : Told t := by
  rcases step_moves h with ⟨ha, hm, ht⟩
  rw [ht]
  exact told_moves hs ha hm

theorem told_init (dir : Nat) : Told (init dir) where
  ended c hc := absurd hc (by simp [init])
  zombie w hw := absurd hw (by simp [init, Lifecycle.init])
  outcome r hr := absurd hr (by simp [init, Lifecycle.init, Diagnosis.outcome])
  launched h := absurd h (by simp [init, Lifecycle.init, Process.alive])
  fired := by simp [init]

/-- A result that was submitted is truthful exactly when its cause was not one
    to misread. -/
theorem truthful_iff (hs : Told s) {r : ExecutionResult} (hp : s.job.phase = .done r)
    (hr : r.preempted = false) : Truthful s ↔ ¬ Misled s := by
  rcases hs.outcome r (by simp [hp, outcome, hr]) with ⟨c, hc, hverdict⟩
  have hread : verdictOf r = .timeout ↔ c.status = .signaled 9 :=
    hverdict ▸ verdictOf_resultOf c.status
  have hfired : s.fired = true ↔ c = .timeoutWatchdog := by
    rw [hs.fired, hc, Option.some.injEq]
  constructor
  · rintro ht ⟨d, hd, hne, hstatus⟩
    have hdc : d = c := Option.some.inj (hd.symm.trans hc)
    subst hdc
    exact hne (hfired.mp (ht.timeout r hp (hread.mpr hstatus)))
  · intro hm
    have hcause : c.status = .signaled 9 → c = .timeoutWatchdog := fun hstatus =>
      Classical.byContradiction fun hne => hm ⟨c, hc, hne, hstatus⟩
    refine ⟨fun q hq hv => ?_, fun q d hq hd hattributed hv => ?_⟩
    · have hqr : r = q := Phase.done.inj (hp.symm.trans hq)
      exact hfired.mpr (hcause (hread.mp (hqr ▸ hv)))
    · have hqr : r = q := Phase.done.inj (hp.symm.trans hq)
      have hdc : d = c := Option.some.inj (hd.symm.trans hc)
      have htimeout := hcause (hread.mp (hqr ▸ hv))
      rw [hdc, htimeout] at hattributed
      simp at hattributed

/-- The result a worker submits is no preemption's. -/
def Final (s : State) : Prop := ∀ r, s.job.phase = .done r → r.preempted = false

theorem final_moves (hs : Final s) (h : Moves cfg s.job e.action job) :
    Final (record s e job) := by
  intro r hr
  simp only [record] at hr
  generalize e.action = a at h
  cases h with
  | leaves q hp =>
      simp only [Lifecycle.leave] at hr
      cases hq : q.preempted <;> simp [hq] at hr
      exact hr ▸ hq
  | fires hw hz => exact hs r hr
  | works w hz => exact hs r hr
  | exits code hz => exact hs r hr
  | dies sig hz he => exact hs r hr
  | groups leader hz => exact hs r hr
  | continues leader reported hz => exact hs r hr
  | changes dir => exact hs r hr
  | _ => simp [Lifecycle.begin, Lifecycle.collect] at hr

/-- For every configuration, quantum and order of events: the verdict of a job
    that was submitted is truthful exactly when no `SIGKILL` but that of its
    `TimeoutWatchdog` ended its living process. -/
theorem truthful_iff_fair (cfg : Config) (dir : Nat) (events : List Event) (s : State)
    (r : ExecutionResult) (h : Lts.run (step cfg) (init dir) events = some s)
    (hdone : s.job.phase = .done r) :
    Truthful s ↔ Lts.Along (step cfg) Fair (init dir) events := by
  have htold : Told s := Lts.run_invariant (fun _ _ _ hs hstep => told_step hs hstep)
    (told_init dir) h
  have hfinal : Final s := Lts.run_invariant (fun u e v hs hstep => by
    rcases step_moves hstep with ⟨_, hm, hv⟩
    rw [hv]
    exact final_moves hs hm) (fun q hq => absurd hq (by simp [init, Lifecycle.init])) h
  rw [truthful_iff htold hdone (hfinal r hdone)]
  constructor
  · intro hm
    refine Lts.along_of_not_end (fun _ _ _ hs hstep => told_step hs hstep)
      (fun u e v _ hstep hg => ?_) (fun u e v hs hq hstep => ?_) (told_init dir) h hm
    · rcases step_moves hstep with ⟨ha, hmoves, hv⟩
      rw [hv]
      exact misled_of_unfair ha hmoves hg
    · rcases step_moves hstep with ⟨_, _, hv⟩
      rw [hv]
      exact misled_moves hs hq
  · intro hg
    refine Lts.always_end (P := fun u => ¬ Misled u) (Lts.always_of_along
      (fun u e v hm he hstep => ?_) events ?_ hg) h
    · rcases step_moves hstep with ⟨ha, hmoves, hv⟩
      rw [hv]
      exact fair_moves hm ha hmoves he
    · rintro ⟨c, hc, _⟩
      exact absurd hc (by simp [init])

/-- A job that its timeout ends. -/
theorem truthful_timeout :
    ∃ s : State, s.cause = some .timeoutWatchdog ∧ (Truthful s ↔
      Lts.Along (step ⟨true, true, 0, fun _ => ([], [])⟩) Fair (init 0)
        [.other .dequeue, .other .clone, .other .applyToPid, .other .startWatchdog, .other .sync,
          .timeoutFires, .other .waitpid, .other .collect, .other .destroyWatchdog,
          .other .destroyLimiter]) :=
  ⟨_, rfl, truthful_iff_fair ⟨true, true, 0, fun _ => ([], [])⟩ 0 _ _ _ rfl rfl⟩

/-- A job blocked on a suspicious system call is killed for it at once, and is
    shown as timed out. -/
theorem anomaly_reads_timeout : ¬ ∀ (cfg : Config) (dir : Nat) (events : List Event) (s : State),
    Lts.run (step cfg) (init dir) events = some s → Truthful s := by
  intro h
  have ht := h ⟨true, true, 0, fun _ => ([], [])⟩ 0
    [.other .dequeue, .other .clone, .other .applyToPid, .other .startWatchdog, .other .sync,
      .anomalyFires, .other .waitpid, .other .collect, .other .destroyWatchdog,
      .other .destroyLimiter] _ rfl
  exact absurd (ht.timeout _ rfl rfl) (by decide)

end Diagnosis

end Isolyx
