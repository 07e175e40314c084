import Isolyx.Core.Engine
import Isolyx.Theory.Containment

/-!
# Cleaning Up on the Way Out

What is left when the engine process is gone: a process it launched and that
has not ended, or a cgroup directory. A limiter's destructor removes both for
its burst, since it kills what is in the cgroup and then removes the directory,
which succeeds once the cgroup is empty. A limiter that is never destroyed
leaves its directory behind.

Between two bursts nothing is left: the first burst of a job puts its process
into the cgroup, and its end kills the process if the wait did not see it end,
so that later bursts find no process at all. During a burst there is at least
the directory. A burst is under way only while a worker executes the job, so
the end of the shell's input is harmless: `stop` joins every worker before
`main` returns. `exit` waits for nobody. It ends the engine at once, on the
main thread or on a worker, and the bursts of the other workers are cut off
wherever they are.

## Main definitions

* `Tidy`: What a job's life keeps of its limiter and its process.
* `Attended`: A burst is under way only while a worker executes the job.
* `Clean`: No process is alive and no cgroup directory remains.
* `Idle`: No burst is under way.
* `Orderly`: The step is no `exit`, or no burst is under way.

## Theorems

* `tidy_moves`: A step of a job's life keeps it tidy.
* `attended_of_step`: A step of the engine leaves no burst unattended.
* `clean_iff_idle`: What is clean is what is idle.
* `cleansUp_iff_orderly`: A run cleans up exactly when its exits are orderly.
* `exit_leaves_process`: The shell's `exit` leaves a running process behind.
-/

namespace Isolyx

namespace Lifecycle

variable {cfg : Config} {s t : State} {a : Action}

/-- No burst of the job is under way. -/
def Phase.atRest : Phase → Bool
  | queued | done _ => true
  | _ => false

/-- The burst under way is past `applyToPid`, or resumed the process. -/
def Phase.applied : Phase → Bool
  | limited | watched | waiting _ | ended _ | returned _ | unwatched _ => true
  | queued | made | cloned | done _ => false

/-- A burst has a limiter, and a living process is in its cgroup, or is about
    to be put there. -/
structure Tidy (s : State) : Prop where
  limiter : s.limiter.isSome = !s.phase.atRest
  process : s.process.alive = true →
    s.phase = .cloned ∨ s.phase.applied = true ∧ s.member = s.limiter

/-! ## The life of a job -/

/-- A process that lives after a step and lived before it, in a burst that is
    past `applyToPid` before and after. -/
theorem Tidy.advance (hs : Tidy s) (hbefore : s.phase.applied = true)
    (hafter : t.phase.applied = true) (hlimiter : t.limiter = s.limiter)
    (hmember : t.member = s.member) (halive : t.process.alive = true → s.process.alive = true) :
    Tidy t where
  limiter := by
    have hrest : t.phase.atRest = false := by
      cases hp : t.phase <;> simp only [hp, Phase.applied, Bool.false_eq_true] at hafter <;> rfl
    have hrest' : s.phase.atRest = false := by
      cases hp : s.phase <;> simp only [hp, Phase.applied, Bool.false_eq_true] at hbefore <;> rfl
    rw [hlimiter, hs.limiter, hrest, hrest']
  process := by
    intro h
    rcases hs.process (halive h) with hp | ⟨_, hm⟩
    · rw [hp] at hbefore
      exact absurd hbefore (by decide)
    · exact .inr ⟨hafter, by rw [hlimiter, hmember, hm]⟩

/-- A job that no burst is past the launch of has no living process. -/
theorem Tidy.not_alive (hs : Tidy s) (hcloned : s.phase ≠ .cloned)
    (happlied : s.phase.applied = false) : s.process.alive = false := by
  rw [Bool.eq_false_iff]
  intro halive
  rcases hs.process halive with hp | ⟨hp, _⟩
  · exact hcloned hp
  · exact Bool.false_ne_true (happlied.symm.trans hp)

/-- A step of the process changes nothing but the process, which it finds alive. -/
theorem Tidy.setProcess (hs : Tidy s) (p : Process)
    (halive : p.alive = true → s.process.alive = true) : Tidy { s with process := p } :=
  ⟨hs.limiter, fun h => hs.process (halive h)⟩

theorem tidy_moves (hl : cfg.limiter = true) (hs : Tidy s) (h : Moves cfg s a t) : Tidy t := by
  cases h with
  | dequeues hp =>
      have hdead : s.process.alive = false := hs.not_alive (by simp [hp]) (by rw [hp]; rfl)
      refine ⟨?_, fun halive => absurd (hdead.symm.trans halive) Bool.false_ne_true⟩
      simp only [begin, hl, if_true, Option.isSome_some, Phase.atRest, Bool.not_false]
  | clones hp hnew =>
      refine ⟨?_, fun _ => .inl rfl⟩
      have hlim := hs.limiter
      rw [hp] at hlim
      exact hlim
  | applies hp =>
      refine ⟨?_, fun _ => .inr ⟨rfl, rfl⟩⟩
      have hlim := hs.limiter
      rw [hp] at hlim
      exact hlim
  | starts hp => exact hs.advance (by rw [hp]; rfl) rfl rfl rfl id
  | syncs hp =>
      refine hs.advance (by rw [hp]; rfl) rfl rfl rfl fun h => ?_
      rwa [Process.enter_alive] at h
  | resumes hp hold =>
      -- a burst that only resumes finds no living process
      have hdead : s.process.alive = false := hs.not_alive (by simp [hp]) (by rw [hp]; rfl)
      refine ⟨?_, fun halive => ?_⟩
      · have hlim := hs.limiter
        rw [hp] at hlim
        exact hlim
      · rw [Process.continueGroup_alive] at halive
        exact absurd (hdead.symm.trans halive) Bool.false_ne_true
  | pollsEnd elapsed status hp hq hz =>
      exact hs.advance (by rw [hp]; rfl) rfl rfl rfl fun h =>
        absurd h (by simp only [Process.alive, Bool.false_eq_true, not_false_eq_true])
  | pollsStop elapsed leader hp hq hz =>
      exact hs.advance (by rw [hp]; rfl) rfl rfl rfl fun _ => by rw [hz]; rfl
  | pollsExpired elapsed hp hq =>
      refine hs.advance (by rw [hp]; rfl) rfl rfl rfl fun h => ?_
      rwa [Process.stopGroup_alive] at h
  | pollsOn elapsed hp hq => exact hs.advance (by rw [hp]; rfl) rfl rfl rfl id
  | waits elapsed status hp hz =>
      exact hs.advance (by rw [hp]; rfl) rfl rfl rfl fun h =>
        absurd h (by simp only [Process.alive, Bool.false_eq_true, not_false_eq_true])
  | collects r hp => exact hs.advance (by rw [hp]; rfl) rfl rfl rfl id
  | unwatches r hp => exact hs.advance (by rw [hp]; rfl) rfl rfl rfl id
  | leaves r hp =>
      have hdead : (leave s r).process.alive = false := by
        by_cases halive : s.process.alive = true
        · -- a living process is in the cgroup of this burst, so it is killed
          rcases hs.process halive with hp' | ⟨_, hm⟩
          · exact absurd (hp.symm.trans hp') (by simp only [reduceCtorEq, not_false_eq_true])
          have hheld : s.held = true := by
            have hlim := hs.limiter
            rw [hp] at hlim
            simp only [State.held, hm, beq_self_eq_true, Bool.and_true]
            exact hlim
          simp only [leave, hheld, if_true, Process.kill_alive]
        · rw [Bool.not_eq_true] at halive
          simp only [leave, Process.kill_of_not_alive halive, ite_self, halive]
      refine ⟨?_, fun h => absurd (hdead.symm.trans h) Bool.false_ne_true⟩
      by_cases hr : r.preempted = true
      · simp only [leave, if_pos hr]
        rfl
      · simp only [leave, if_neg hr]
        rfl
  | fires hrun hz =>
      exact hs.setProcess _ fun h => absurd h (by
        simp only [Process.kill_alive, Bool.false_eq_true, not_false_eq_true])
  | works w hz => exact ⟨hs.limiter, hs.process⟩
  | exits code hz =>
      exact hs.setProcess _ fun h => absurd h (by
        simp only [Process.alive, Bool.false_eq_true, not_false_eq_true])
  | dies sig hz he => exact hs.setProcess _ fun _ => hz
  | groups leader hz => exact hs.setProcess _ fun _ => Process.alive_of_runnable hz
  | continues leader reported hz => exact hs.setProcess _ fun _ => by rw [hz]; rfl
  | changes dir => exact ⟨hs.limiter, hs.process⟩

theorem tidy_init (dir : Nat) : Tidy (init dir) where
  limiter := rfl
  process := fun h => absurd h (by
    simp only [init, Process.alive, Bool.false_eq_true, not_false_eq_true])

/-- Nothing is left of a job exactly when no burst of it is under way. -/
theorem Tidy.clean_iff (hs : Tidy s) :
    (s.process.alive = false ∧ s.limiter = none) ↔ s.phase.atRest = true := by
  constructor
  · rintro ⟨_, hlimiter⟩
    have h := hs.limiter
    rw [hlimiter, Option.isSome_none] at h
    exact Bool.not_eq_false' .. ▸ h.symm
  · intro hrest
    refine ⟨?_, ?_⟩
    · cases hp : s.phase <;> simp only [hp, Phase.atRest, Bool.false_eq_true] at hrest <;>
        exact hs.not_alive (by simp [hp]) (by rw [hp]; rfl)
    · have h := hs.limiter
      rw [hrest, Bool.not_true] at h
      exact Option.isSome_eq_false_iff.mp h |> Option.isNone_iff_eq_none.mp

/-- A step of a process or of a watchdog's thread leaves the worker where it is. -/
theorem phase_of_process (h : Moves cfg s a t) (ha : a.ofProcess = true ∨ a = .fires) :
    t.phase = s.phase := by
  cases h with
  | fires | works | exits | dies | groups | continues => rfl
  | _ =>
      rcases ha with ha | ha
      · exact absurd ha Bool.false_ne_true
      · cases ha

end Lifecycle

namespace Pool

variable {n : Nat} {sched : Scheduler} {s t : State n} {a : Action n}

/-! ## Workers in a burst -/

theorem setWorker_executing {w x : Fin n} {v : Worker} {job : Job}
    (hw : s.workers w ≠ .executing job) (hx : s.workers x = .executing job) :
    (setWorker s w v).workers x = .executing job := by
  rw [setWorker_workers_other s w x v, hx]
  intro heq
  exact hw (heq ▸ hx)

/-- A worker executes its job until `execute` returns. -/
theorem executing_of_moves {x : Fin n} {job : Job} (h : Moves sched s a t)
    (hx : s.workers x = .executing job)
    (ha : ∀ res pid uniqueId, a ≠ .execute x res pid uniqueId) :
    t.workers x = .executing job := by
  cases h with
  | enqueues sub wake ws hnew hwake => exact (notifyOne_eq hwake (by simp) (by simp) x).mpr hx
  | requeues w held wake ws hw hwake =>
      exact (notifyOne_eq hwake (by simp) (by simp) x).mpr
        (setWorker_executing (by simp [hw]) hx)
  | preempts w held res pid uniqueId hw hp | finishes w held res pid uniqueId hw hp =>
      -- another worker's `execute` returns
      have hne : x ≠ w := fun heq => ha res pid uniqueId (heq ▸ rfl)
      rw [setWorker_workers_other _ _ _ _ hne, hx]
  | clears hs | joins hs hw => exact hx
  | stops hs => exact (notifyAll_eq _ (by simp) (by simp) x).mpr hx
  | takes w held rest hw hg => exact setWorker_executing (by simp [hw]) hx
  | enters w hw | leaves w hw | blocks w hw | departs w hw | wakes w hw | files w held res hw
  | reports w held res hw | passes w held res hw | breaks w held res p hw
  | pays w held res p hw | ends w held hw => exact setWorker_executing (by simp [hw]) hx

/-- A worker executes the job, and its command is a program. -/
def Executing (s : State n) (i : Nat) : Prop :=
  ∃ w job, s.workers w = .executing job ∧ job.id = i ∧ job.cmd.isProgram = true

theorem Executing.keep {i : Nat} (hs : Executing s i) (h : step sched s a = some t)
    (ha : ∀ w job, s.workers w = .executing job → job.id = i → job.cmd.isProgram = true →
      ∀ res pid uniqueId, a ≠ .execute w res pid uniqueId) : Executing t i := by
  rcases hs with ⟨w, job, hw, hid, hc⟩
  exact ⟨w, job, executing_of_moves (moves_of_step h) hw (ha w job hw hid hc), hid, hc⟩

/-- Once `stop` has returned, every worker has left the loop. -/
def Joined (s : State n) : Prop := s.stopper = .returned → ∀ w, s.workers w = .gone

theorem joined_moves (hs : Joined s) (h : Moves sched s a t) : Joined t := by
  -- a worker that is gone takes no step
  have hset : ∀ {w : Fin n} {u : Worker} {r : State n}, s.workers w = u → u ≠ .gone →
      r.stopper = s.stopper → Joined r := by
    intro w u r hw hu hstop hret
    exact absurd (hw.symm.trans (hs (hstop ▸ hret) w)) hu
  cases h with
  | enqueues sub wake ws hnew hwake =>
      intro hret x
      exact (notifyOne_eq hwake (by simp) (by simp) x).mpr (hs hret x)
  | requeues w held wake ws hw hwake =>
      intro hret
      exact absurd (hw.symm.trans (hs hret w)) (by simp)
  | clears hstop | stops hstop =>
      intro hret
      simp only [reduceCtorEq] at hret
  | joins hstop hw => exact fun _ => hw
  | enters w hw | leaves w hw | blocks w hw | departs w hw | wakes w hw | takes w held rest hw
  | preempts w held res pid uniqueId hw | finishes w held res pid uniqueId hw
  | files w held res hw | reports w held res hw | passes w held res hw
  | breaks w held res p hw | pays w held res p hw | ends w held hw =>
      exact hset hw (by simp) rfl

end Pool

namespace Engine

variable {n : Nat} {setup : Setup} {s t : State n} {a : Action n}

/-! ## The engine -/

/-- No process launched for a job is alive, and no limiter's directory remains. -/
structure Clean (s : State n) : Prop where
  process : ∀ i, (s.jobs i).process.alive = false
  cgroup : ∀ i, (s.jobs i).limiter = none

/-- If the engine process is gone, it left nothing behind. -/
def CleansUp (s : State n) : Prop := s.alive = false → Clean s

/-- No burst is under way. -/
def Idle (s : State n) : Prop := ∀ i, (s.jobs i).phase.atRest = true

/-- The step is no `exit`, on the main thread or on a worker, or no burst is
    under way. -/
def Orderly (s : State n) : Action n → Prop
  | .shellLine line _ _ => (Parser.parseLine line).executable = ascii "exit" → Idle s
  | .builtin w _ => ∀ job, s.pool.workers w = .executing job →
      job.cmd.executable = ascii "exit" → Idle s
  | _ => True

/-- A burst is under way only while a worker executes the job. -/
structure Attended (s : State n) : Prop where
  tidy : ∀ i, Lifecycle.Tidy (s.jobs i)
  bursts : ∀ i, (s.jobs i).phase.atRest = false → Pool.Executing s.pool i
  joined : Pool.Joined s.pool

theorem tidy_of_step (hs : ∀ i, Lifecycle.Tidy (s.jobs i)) (h : step setup s a = some t)
    (i : Nat) : Lifecycle.Tidy (t.jobs i) := by
  rcases jobs_of_step h i with heq | ⟨b, hb⟩
  · exact heq ▸ hs i
  · exact Lifecycle.tidy_moves rfl (hs i) (Lifecycle.moves_of_step hb)

theorem joined_of_step (hs : Pool.Joined s.pool) (h : step setup s a = some t) :
    Pool.Joined t.pool := by
  rcases pool_of_step h with heq | ⟨b, hb⟩
  · exact heq ▸ hs
  · exact Pool.joined_moves hs (Pool.moves_of_step hb)

theorem Handles.phase_eq {cmd : Command} (h : Handles setup s cmd t) (i : Nat) :
    (t.jobs i).phase = (s.jobs i).phase := by
  cases h <;> rfl

/-- A step of a process or of a watchdog's thread leaves every worker where it is. -/
theorem phase_of_live {k : Nat} {b : Lifecycle.Action} (h : live setup s k b = some t)
    (hb : b.ofProcess = true ∨ b = .fires) (i : Nat) :
    (t.jobs i).phase = (s.jobs i).phase := by
  rcases live_eq_some h with ⟨j, hj, rfl⟩
  by_cases hi : i = k
  · subst hi
    exact (congrArg Lifecycle.State.phase (Function.update_self i j s.jobs)).trans
      (Lifecycle.phase_of_process (Lifecycle.moves_of_step hj) hb)
  · exact congrArg Lifecycle.State.phase (Function.update_of_ne hi j s.jobs)

theorem bursts_of_step
    (hs : ∀ i, (s.jobs i).phase.atRest = false → Pool.Executing s.pool i)
    (h : step setup s a = some t) (i : Nat) (hi : (t.jobs i).phase.atRest = false) :
    Pool.Executing t.pool i := by
  cases moves_of_step h with
  | skips | ignores | resumes | returns | quits => exact hs i hi
  | accepts line wake cmd u hline hsub =>
      rcases submit_eq_some hsub with ⟨p, hpool, rfl⟩
      exact (hs i hi).keep hpool (by simp)
  | submits line outcome wake main u hc hsub =>
      rcases submit_eq_some hsub with ⟨p, hpool, rfl⟩
      exact (hs i hi).keep hpool (by simp)
  | interprets line outcome wake t hc hh =>
      rw [hh.phase_eq] at hi
      rw [hh.pool_eq]
      exact hs i hi
  | stops p hpool => exact (hs i hi).keep hpool (by simp)
  | loops b p hb hpool =>
      refine (hs i hi).keep hpool fun w job _ _ _ res pid uniqueId heq => ?_
      rw [heq] at hb
      exact absurd hb (by simp [Pool.Action.ofLoop])
  | executes w outcome job res u v hw hc hh ht hret =>
      rcases returnResult_eq_some hret with ⟨p, hpool, rfl⟩
      rw [hh.pool_eq] at hpool
      have hrest : (s.jobs i).phase.atRest = false := hh.phase_eq i ▸ hi
      refine (hs i hrest).keep hpool fun x held hx _ hprog res' pid uniqueId heq => ?_
      -- what returns is no program
      rw [Pool.Action.execute.injEq] at heq
      rw [heq.1, hx, Pool.Worker.executing.injEq] at hw
      rw [← hw, hprog] at hc
      exact absurd hc (by decide)
  | bursts w b job u hw hc hb hburst =>
      rcases burst_eq_some hburst with ⟨j, hj, rfl⟩
      by_cases hid : job.id = i
      · exact ⟨w, job, hw, hid, hc⟩
      · -- another job's burst goes on
        have hother : Function.update s.jobs job.id j i = s.jobs i :=
          Function.update_of_ne (Ne.symm hid) j s.jobs
        exact hs i (hother ▸ hi)
  | ends w pid uniqueId job res u v hw hp hlive hret =>
      rcases live_eq_some hlive with ⟨j, hj, rfl⟩
      rcases returnResult_eq_some hret with ⟨p, hpool, rfl⟩
      by_cases hid : job.id = i
      · -- the burst that ends is over
        subst hid
        have hrest : (Function.update s.jobs job.id j job.id).phase.atRest = false := hi
        rw [Function.update_self] at hrest
        cases Lifecycle.moves_of_step hj with
        | leaves r hr =>
            simp only [Lifecycle.leave] at hrest
            split at hrest <;> exact absurd hrest (by simp [Lifecycle.Phase.atRest])
      · have hother : Function.update s.jobs job.id j i = s.jobs i :=
          Function.update_of_ne (Ne.symm hid) j s.jobs
        refine (hs i (hother ▸ hi)).keep hpool fun x held hx hxid _ res' pid' uid heq => ?_
        rw [Pool.Action.execute.injEq] at heq
        rw [heq.1, hx, Pool.Worker.executing.injEq] at hw
        exact hid (hw ▸ hxid)
  | lives k b u hb hlive =>
      rw [phase_of_live hlive (hb.imp id And.left)] at hi
      rcases live_eq_some hlive with ⟨j, -, rfl⟩
      exact hs i hi

theorem attended_of_step (hs : Attended s) (h : step setup s a = some t) : Attended t :=
  ⟨tidy_of_step hs.tidy h, bursts_of_step hs.bursts h, joined_of_step hs.joined h⟩

theorem attended_init (n dir : Nat) : Attended (init n dir) where
  tidy _ := Lifecycle.tidy_init dir
  bursts _ h := absurd h (by simp [init, Lifecycle.init, Lifecycle.Phase.atRest])
  joined h := absurd h (by simp [init, Pool.init])

/-- What is clean is what is idle. -/
theorem clean_iff_idle (hs : Attended s) : Clean s ↔ Idle s := by
  constructor
  · intro hclean i
    exact (hs.tidy i).clean_iff.mp ⟨hclean.process i, hclean.cgroup i⟩
  · intro hidle
    exact ⟨fun i => ((hs.tidy i).clean_iff.mpr (hidle i)).1,
      fun i => ((hs.tidy i).clean_iff.mpr (hidle i)).2⟩

/-- Where every worker is gone, no burst is under way. -/
theorem idle_of_joined (hs : Attended s) (hret : s.pool.stopper = .returned) : Idle s := by
  intro i
  by_contra hbusy
  rcases hs.bursts i (Bool.eq_false_iff.mpr hbusy) with ⟨w, job, hw, _⟩
  exact absurd (hw.symm.trans (hs.joined hret w)) (by simp)

/-! ## Ways to end -/

theorem cleansUp_of_alive (h : s.alive = true) : CleansUp s :=
  fun hdead => absurd (h.symm.trans hdead) (by decide)

/-- Where the engine ends, it cleans up exactly if it was idle. -/
theorem cleansUp_end (hs : Attended s) : CleansUp { s with alive := false } ↔ Idle s := by
  have hend : Attended { s with alive := false } := ⟨hs.tidy, hs.bursts, hs.joined⟩
  constructor
  · intro h
    exact (clean_iff_idle hend).mp (h rfl)
  · intro hidle _
    exact (clean_iff_idle hend).mpr hidle

theorem ne_exit_of_isProgram {cmd : Command} (h : cmd.isProgram = true) :
    cmd.executable ≠ ascii "exit" := by
  intro heq
  simp [Command.isProgram, Command.isBuiltin, heq] at h

theorem Handles.ne_exit {cmd : Command} (h : Handles setup s cmd t) (ht : t.alive = true) :
    cmd.executable ≠ ascii "exit" := by
  cases h with
  | exits hc => exact absurd ht (by simp)
  | stays hc => exact hc
  | enters path dir hc => rw [hc]; decide

/-- After the engine has ended, processes only take away. -/
theorem cleansUp_after (hs : Attended s) (hP : CleansUp s) (hdead : s.alive = false)
    (h : step setup s a = some t) : CleansUp t := by
  intro _
  rw [clean_iff_idle (attended_of_step hs h)]
  have hidle : Idle s := (clean_iff_idle hs).mp (hP hdead)
  cases moves_of_step h with
  | lives k b u hb hlive =>
      intro i
      rw [phase_of_live hlive (hb.imp id And.left)]
      exact hidle i
  | _ =>
      -- every other step is one of the engine's threads
      rcases alive_or_ofProcess h with halive | hof
      · exact absurd (hdead.symm.trans halive) (by decide)
      · exact absurd hof (by simp [Action.ofProcess])

/-- On states a run goes through, a step keeps `CleansUp` exactly when it is
    orderly. -/
theorem cleansUp_step (hs : Attended s) (hP : CleansUp s) (h : step setup s a = some t) :
    CleansUp t ↔ Orderly s a := by
  by_cases halive : s.alive = true
  · cases moves_of_step h with
    | skips => exact iff_of_true hP trivial
    | resumes => exact iff_of_true (cleansUp_of_alive halive) trivial
    | accepts line wake cmd u hline hsub =>
        rcases submit_eq_some hsub with ⟨p, -, rfl⟩
        exact iff_of_true (cleansUp_of_alive halive) trivial
    | ignores line outcome wake hc =>
        refine iff_of_true hP fun hexit => ?_
        rw [Command.isEmpty, hexit] at hc
        exact absurd hc (by decide)
    | submits line outcome wake main u hc hsub =>
        rcases submit_eq_some hsub with ⟨p, -, rfl⟩
        exact iff_of_true (cleansUp_of_alive halive)
          fun hexit => absurd hexit (ne_exit_of_isProgram hc)
    | interprets line outcome wake t hc hh =>
        by_cases hexit : (Parser.parseLine line).executable = ascii "exit"
        · cases hh with
          | exits => exact (cleansUp_end hs).trans ⟨fun hidle _ => hidle, fun hg => hg hexit⟩
          | stays hne => exact absurd hexit hne
          | enters path dir hcd => exact absurd (hcd.symm.trans hexit) (by decide)
        · refine iff_of_true (cleansUp_of_alive ?_) fun heq => absurd heq hexit
          cases hh with
          | exits heq => exact absurd heq hexit
          | stays | enters => exact halive
    | stops p hpool | loops b p hb hpool => exact iff_of_true (cleansUp_of_alive halive) trivial
    | returns hret => exact iff_of_true ((cleansUp_end hs).mpr (idle_of_joined hs hret)) trivial
    | executes w outcome job res u v hw hc hh ht hret =>
        rcases returnResult_eq_some hret with ⟨p, -, rfl⟩
        refine iff_of_true (cleansUp_of_alive ht) fun held hheld hexit => ?_
        rw [hw, Pool.Worker.executing.injEq] at hheld
        exact absurd (hheld ▸ hexit) (hh.ne_exit ht)
    | quits w outcome job hw hexit =>
        refine (cleansUp_end hs).trans ⟨fun hidle _ _ _ => hidle, fun hg => hg job hw hexit⟩
    | bursts w b job u hw hc hb hburst =>
        rcases burst_eq_some hburst with ⟨j, -, rfl⟩
        exact iff_of_true (cleansUp_of_alive halive) trivial
    | ends w pid uniqueId job res u v hw hp hlive hret =>
        rcases live_eq_some hlive with ⟨j, -, rfl⟩
        rcases returnResult_eq_some hret with ⟨p, -, rfl⟩
        exact iff_of_true (cleansUp_of_alive halive) trivial
    | lives k b u hb hlive =>
        rcases live_eq_some hlive with ⟨j, -, rfl⟩
        exact iff_of_true (cleansUp_of_alive halive) trivial
  · rw [Bool.not_eq_true] at halive
    have hof : a.ofProcess = true := (alive_or_ofProcess h).resolve_left
      fun hs' => absurd (halive.symm.trans hs') (by decide)
    refine iff_of_true (cleansUp_after hs hP halive h) ?_
    cases a with
    | process k b => trivial
    | _ => exact absurd hof (by simp [Action.ofProcess])

/-- A run leaves no process and no cgroup directory behind exactly when every
    `exit` comes while no burst is under way. -/
theorem cleansUp_iff_orderly (setup : Setup) (n dir : Nat) (actions : List (Action n)) :
    Lts.Always (step setup) CleansUp (init n dir) actions ↔
      Lts.Along (step setup) Orderly (init n dir) actions :=
  Lts.always_iff_along (I := Attended) (fun _ _ _ hs _ h => attended_of_step hs h)
    (fun _ _ _ hs hP h => cleansUp_step hs hP h) actions (attended_init n dir)
    (cleansUp_of_alive rfl)

/-- A program in the background, and `exit` at the next prompt: the program
    runs on, in a cgroup nobody removes. -/
theorem exit_leaves_process : ¬ ∀ (setup : Setup) (n dir : Nat) (actions : List (Action n)),
    Lts.Always (step setup) CleansUp (init n dir) actions := by
  intro h
  let setup : Setup := ⟨.fcfs, fun _ => 0, fun _ => ([], []), fun _ _ _ => false⟩
  let actions : List (Action 4) := [.shellLine (ascii "a &") none none,
    .pool (.testRunning 0), .pool (.dequeue 0), .burst 0 .dequeue, .burst 0 .clone,
    .burst 0 .applyToPid, .burst 0 .startWatchdog, .burst 0 .sync,
    .shellLine (ascii "exit") none none]
  have hrun : (Lts.run (step setup) (init 4 0) actions).map
      (fun s => (s.alive, (s.jobs 1).process, (s.jobs 1).limiter))
      = some (false, .running false, some 0) := by decide
  rcases Option.map_eq_some_iff.mp hrun with ⟨t, ht, hend⟩
  simp only [Prod.mk.injEq] at hend
  have hclean := Lts.always_end (h setup 4 0 actions) ht hend.1
  exact absurd (hend.2.1 ▸ hclean.process 1) (by decide)

end Engine

end Isolyx
