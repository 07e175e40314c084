import Isolyx.Core.Lifecycle

/-!
# Transparency of Preemption

Whether a job's result depends on how often it was preempted. A program is
what its process does when nobody interferes: its work in order, and then an
exit. Under a quantum of zero it yields the result read off it, and that is
the only result it can yield unless a signal ended it (`nonPreemptive_iff`).

Under any quantum, the process goes on where it was stopped, so preemption as
such changes nothing. Three steps of the engine can. A watchdog may fire on the
process while it is alive, which is what it is for. The limiter's destructor
kills what is in the cgroup, and at the end of a preempted burst that is the
job itself. And the output is read below the directory the engine is in when
the last burst starts, which a `cd` job may have changed.

## Main definitions

* `Program`: What a process does when nobody interferes.
* `runOf`: The steps of a job whose process follows a program.
* `NonPreemptive`: What a program yields without preemption.
* `Transparent`: Nothing killed the process, and the result is the given one.
* `Harmless`: The step neither kills the process nor reads elsewhere.

## Theorems

* `follows_moves`: The state agrees with the program throughout.
* `nonPreemptive_iff`: Without preemption, a program has exactly one result.
* `transparent_moves`: A step keeps transparency exactly when it is harmless.
* `transparent_iff_harmless`: So does a run.
* `preemption_kills`: One preemption under a limiter kills the job.
-/

namespace Isolyx

namespace Lifecycle

/-- What a process does when nobody interferes. -/
structure Program where
  work : List Work
  status : UInt8
  deriving DecidableEq, Repr

namespace Program

/-- The process may take the step. -/
def allows (prog : Program) (s : State) : Action → Bool
  | .work w => prog.work[s.trace.length]? == some w
  | .exits code => s.trace == prog.work && code == prog.status
  | .dies _ => false
  | _ => true

/-- The result read off the program. -/
def result (prog : Program) : ExecutionResult :=
  { resultOf (.exited prog.status) with
    stdoutOut := prog.work.flatMap Work.out
    stderrOut := prog.work.flatMap Work.err }

end Program

/-- The steps of a job whose process follows a program. -/
def runOf (cfg : Config) (prog : Program) (s : State) (a : Action) : Option State :=
  if prog.allows s a then step cfg s a else none

/-- The result `isolateAndRun` returned, unless the job was preempted. -/
def Phase.result : Phase → Option ExecutionResult
  | returned r | unwatched r | done r => if r.preempted then none else some r
  | _ => none

/-- A run with a quantum of zero ends in a result that is no signal's. -/
def NonPreemptive (limiter watchdog : Bool) (elsewhere : Nat → Bytes × Bytes) (dir : Nat)
    (prog : Program) (res : ExecutionResult) : Prop :=
  ∃ as s, Lts.run (runOf ⟨limiter, watchdog, 0, elsewhere⟩ prog) (init dir) as = some s ∧
    s.phase = .done res ∧ res.termSignal = 0

/-- No signal ended the process, and the result, once there is one, is the
    given one. -/
structure Transparent (res : ExecutionResult) (s : State) : Prop where
  unharmed : ∀ sig, s.process ≠ .zombie (.signaled sig)
  result : ∀ r, s.phase.result = some r → r = res

/-- No watchdog fires on a living process, no limiter is destroyed while the
    process lives in its cgroup, and the output is read below the directory of
    the launch, or below one that holds the same two files. -/
def Harmless (cfg : Config) (s : State) : Action → Prop
  | .fires => s.process.alive = false
  | .destroyLimiter => s.held = false ∨ s.process.alive = false
  | .collect => s.rootfs = s.home ∨ cfg.elsewhere s.rootfs = (s.out, s.err)
  | _ => True

instance (cfg : Config) (s : State) : ∀ a, Decidable (Harmless cfg s a)
  | .fires => inferInstanceAs (Decidable (s.process.alive = false))
  | .destroyLimiter => inferInstanceAs (Decidable (s.held = false ∨ s.process.alive = false))
  | .collect =>
      inferInstanceAs (Decidable (s.rootfs = s.home ∨ cfg.elsewhere s.rootfs = (s.out, s.err)))
  | .dequeue | .clone | .applyToPid | .startWatchdog | .sync | .resume | .poll | .waitpid
  | .destroyWatchdog | .work _ | .exits _ | .dies _ | .group _ | .continued | .cd _ =>
      isTrue trivial

variable {cfg : Config} {prog : Program} {s t : State} {a : Action}

theorem runOf_moves (h : runOf cfg prog s a = some t) :
    prog.allows s a = true ∧ Moves cfg s a t := by
  rw [runOf, Option.ite_none_right_eq_some] at h
  exact ⟨h.1, moves_of_step h.2⟩

/-! ## Following a program -/

/-- What the process did and left agrees with the program. -/
structure Follows (prog : Program) (s : State) : Prop where
  out : s.out = s.trace.flatMap Work.out
  err : s.err = s.trace.flatMap Work.err
  exited : ∀ code, s.process = .zombie (.exited code) → s.trace = prog.work ∧ code = prog.status
  signaled : ∀ sig, s.process = .zombie (.signaled sig) → sig = 9
  ended : ∀ r, s.phase = .ended r → s.process = .reaped ∧
    (r.termSignal = 0 → s.trace = prog.work ∧ r = resultOf (.exited prog.status))

/-- A step of the worker that neither ends the wait nor ends the process. -/
theorem Follows.advance (hs : Follows prog s) (hout : t.out = s.out) (herr : t.err = s.err)
    (htrace : t.trace = s.trace) (hzombie : ∀ w, t.process = .zombie w → s.process = .zombie w)
    (hphase : ∀ r, t.phase ≠ .ended r) : Follows prog t where
  out := by rw [hout, hs.out, htrace]
  err := by rw [herr, hs.err, htrace]
  exited := fun code h => htrace ▸ hs.exited code (hzombie _ h)
  signaled := fun sig h => hs.signaled sig (hzombie _ h)
  ended := fun r h => absurd h (hphase r)

/-- The wait sees the end of the process. -/
theorem Follows.reap (hs : Follows prog s) {status : WaitStatus}
    (hz : s.process = .zombie status) :
    Follows prog { s with phase := .ended (resultOf status), process := .reaped } where
  out := hs.out
  err := hs.err
  exited := fun code h => absurd h (by simp only [reduceCtorEq, not_false_eq_true])
  signaled := fun sig h => absurd h (by simp only [reduceCtorEq, not_false_eq_true])
  ended := by
    intro r h
    refine ⟨rfl, fun hr => ?_⟩
    rw [Phase.ended.injEq] at h
    -- an exit is the program's, by `exited`; a signal cannot read as no signal
    subst h
    cases status with
    | exited code =>
        rcases hs.exited code hz with ⟨htrace, rfl⟩
        exact ⟨htrace, rfl⟩
    | signaled sig =>
        rw [hs.signaled sig hz] at hr
        exact absurd hr (by simp only [resultOf]; decide)

/-- A change of a process that was not reaped. -/
theorem Follows.change (hs : Follows prog s) (p : Process) (hz : s.process ≠ .reaped)
    (hexited : ∀ code, p = .zombie (.exited code) → s.trace = prog.work ∧ code = prog.status)
    (hsignaled : ∀ sig, p = .zombie (.signaled sig) → sig = 9) :
    Follows prog { s with process := p } where
  out := hs.out
  err := hs.err
  exited := hexited
  signaled := hsignaled
  ended := fun r h => absurd (hs.ended r h).1 hz

theorem Process.kill_eq_zombie {p : Process} {w : WaitStatus} (h : p.kill = .zombie w) :
    p = .zombie w ∨ w = .signaled 9 := by
  unfold kill at h
  by_cases halive : p.alive = true
  · rw [if_pos halive, Process.zombie.injEq] at h
    exact Or.inr h.symm
  · rw [if_neg halive] at h
    exact Or.inl h

theorem Process.enter_eq_zombie {p : Process} {w : WaitStatus} (h : p.enter = .zombie w) :
    p = .zombie w := by
  cases p with
  | entering => exact absurd h (by simp only [enter, reduceCtorEq, not_false_eq_true])
  | _ => exact h

theorem Process.continueGroup_eq_zombie {p : Process} {w : WaitStatus}
    (h : p.continueGroup = .zombie w) : p = .zombie w := by
  unfold continueGroup at h
  split at h
  · exact absurd h (by simp only [reduceCtorEq, not_false_eq_true])
  · exact h

theorem Process.stopGroup_eq_zombie {p : Process} {w : WaitStatus} (h : p.stopGroup = .zombie w) :
    p = .zombie w := by
  unfold stopGroup at h
  split at h
  · exact absurd h (by simp only [reduceCtorEq, not_false_eq_true])
  · exact h

theorem Process.ne_reaped_of_runnable {p : Process} (h : p.runnable = true) : p ≠ .reaped := by
  intro hp
  rw [hp] at h
  exact Bool.false_ne_true h

/-- A kill changes nothing but the process, and it is signal 9. -/
theorem Follows.kill (hs : Follows prog s) :
    Follows prog { s with process := s.process.kill } := by
  -- killing what has ended changes nothing
  by_cases halive : s.process.alive = true
  · refine hs.change _ ?_ ?_ ?_
    · intro h
      rw [h] at halive
      exact Bool.false_ne_true halive
    · intro code h
      rcases Process.kill_eq_zombie h with hz | hz
      · exact hs.exited code hz
      · exact absurd hz (by simp only [reduceCtorEq, not_false_eq_true])
    · intro sig h
      rcases Process.kill_eq_zombie h with hz | hz
      · exact hs.signaled sig hz
      · exact WaitStatus.signaled.inj hz
  · have hkill : s.process.kill = s.process := by rw [Process.kill, if_neg halive]
    rw [hkill]
    exact hs

/-- The process does a piece of its work. -/
theorem Follows.work (hs : Follows prog s) (w : Work) (hz : s.process.runnable = true) :
    Follows prog (doWork s w) where
  out := by simp only [doWork, hs.out, List.flatMap_append, List.flatMap_singleton]
  err := by simp only [doWork, hs.err, List.flatMap_append, List.flatMap_singleton]
  exited := by
    intro code h
    have hz' : s.process = .zombie (.exited code) := h
    rw [hz'] at hz
    exact absurd hz Bool.false_ne_true
  signaled := hs.signaled
  ended := fun r h => absurd (hs.ended r h).1 (Process.ne_reaped_of_runnable hz)

/-- The state agrees with the program throughout. -/
theorem follows_moves (hs : Follows prog s) (ha : prog.allows s a = true)
    (h : Moves cfg s a t) : Follows prog t := by
  cases h with
  | dequeues hp =>
      refine hs.advance rfl rfl rfl (fun _ => id) fun r => ?_
      simp only [begin, ne_eq, reduceCtorEq, not_false_eq_true]
  | clones hp hnew =>
      refine hs.advance rfl rfl rfl (fun w h => absurd h ?_) fun r => ?_ <;>
        simp only [ne_eq, reduceCtorEq, not_false_eq_true]
  | applies hp =>
      refine hs.advance rfl rfl rfl (fun _ => id) fun r => ?_
      simp only [ne_eq, reduceCtorEq, not_false_eq_true]
  | starts hp =>
      refine hs.advance rfl rfl rfl (fun _ => id) fun r => ?_
      simp only [ne_eq, reduceCtorEq, not_false_eq_true]
  | syncs hp =>
      refine hs.advance rfl rfl rfl (fun _ => Process.enter_eq_zombie) fun r => ?_
      simp only [ne_eq, reduceCtorEq, not_false_eq_true]
  | resumes hp hold =>
      refine hs.advance rfl rfl rfl (fun _ => Process.continueGroup_eq_zombie) fun r => ?_
      simp only [ne_eq, reduceCtorEq, not_false_eq_true]
  | pollsEnd elapsed status hp hq hz => exact hs.reap hz
  | pollsStop elapsed leader hp hq hz =>
      refine hs.advance rfl rfl rfl (fun w h => absurd h ?_) fun r => ?_ <;>
        simp only [ne_eq, reduceCtorEq, not_false_eq_true]
  | pollsExpired elapsed hp hq =>
      refine hs.advance rfl rfl rfl (fun _ => Process.stopGroup_eq_zombie) fun r => ?_
      simp only [ne_eq, reduceCtorEq, not_false_eq_true]
  | pollsOn elapsed hp hq =>
      refine hs.advance rfl rfl rfl (fun _ => id) fun r => ?_
      simp only [ne_eq, reduceCtorEq, not_false_eq_true]
  | waits elapsed status hp hz => exact hs.reap hz
  | collects r hp =>
      refine hs.advance rfl rfl rfl (fun _ => id) fun r => ?_
      simp only [collect, ne_eq, reduceCtorEq, not_false_eq_true]
  | unwatches r hp =>
      refine hs.advance rfl rfl rfl (fun _ => id) fun r => ?_
      simp only [ne_eq, reduceCtorEq, not_false_eq_true]
  | leaves r hp =>
      -- the limiter kills what is in its cgroup, which `Follows` allows for
      have hphase : ∀ r', (leave s r).phase ≠ .ended r' := by
        intro r'
        by_cases hr : r.preempted = true <;>
          simp only [leave, hr, if_true, if_false, Bool.false_eq_true, ne_eq, reduceCtorEq,
            not_false_eq_true]
      by_cases hheld : s.held = true
      · refine hs.kill.advance rfl rfl rfl (fun w h => ?_) hphase
        simp only [leave, if_pos hheld] at h
        exact h
      · refine hs.advance rfl rfl rfl (fun w h => ?_) hphase
        simp only [leave, if_neg hheld] at h
        exact h
  | fires hrun hz => exact hs.kill
  | works w hz => exact hs.work w hz
  | exits code hz =>
      refine hs.change _ (Process.ne_reaped_of_runnable hz) ?_ ?_
      · intro code' h
        -- the program exits with its own status, and only after all of its work
        simp only [Program.allows, Bool.and_eq_true, beq_iff_eq] at ha
        rw [Process.zombie.injEq, WaitStatus.exited.injEq] at h
        exact ⟨ha.1, h ▸ ha.2⟩
      · exact fun sig h => absurd h (by simp only [Process.zombie.injEq, reduceCtorEq,
          not_false_eq_true])
  | dies sig hz he => exact absurd ha Bool.false_ne_true
  | groups leader hz =>
      refine hs.change _ (Process.ne_reaped_of_runnable hz) ?_ ?_ <;>
        exact fun _ h => absurd h (by simp only [reduceCtorEq, not_false_eq_true])
  | continues leader reported hz =>
      refine hs.change _ (by simp only [hz, ne_eq, reduceCtorEq, not_false_eq_true]) ?_ ?_ <;>
        exact fun _ h => absurd h (by simp only [reduceCtorEq, not_false_eq_true])
  | changes dir => exact ⟨hs.out, hs.err, hs.exited, hs.signaled, hs.ended⟩

theorem follows_init (dir : Nat) : Follows prog (init dir) where
  out := rfl
  err := rfl
  exited := fun code h => absurd h (by simp only [init, reduceCtorEq, not_false_eq_true])
  signaled := fun sig h => absurd h (by simp only [init, reduceCtorEq, not_false_eq_true])
  ended := fun r h => absurd h (by simp only [init, reduceCtorEq, not_false_eq_true])

/-! ## Without preemption -/

@[simp]
theorem resultOf_preempted (w : WaitStatus) : (resultOf w).preempted = false := by
  cases w <;> rfl

/-- What is collected below the directory of the launch is the program's result. -/
theorem collected {r : ExecutionResult} (hs : Follows prog s) (hp : s.phase = .ended r)
    (hr : r.termSignal = 0) :
    { r with stdoutOut := s.out, stderrOut := s.err } = prog.result := by
  rcases (hs.ended r hp).2 hr with ⟨htrace, rfl⟩
  rw [hs.out, hs.err, htrace]
  rfl

/-- What holds at each place of the worker under a quantum of zero. -/
def Single (prog : Program) (s : State) : Prop :=
  match s.phase with
  | .queued | .made => s.launched = false
  | .cloned | .limited | .watched | .waiting _ => s.rootfs = s.home
  | .ended r => s.rootfs = s.home ∧ r.preempted = false
  | .returned r | .unwatched r | .done r =>
      r.preempted = false ∧ (r.termSignal = 0 → r = prog.result)

theorem single_moves (hq : cfg.timeQuantum = 0) (hf : Follows prog s) (hs : Single prog s)
    (h : Moves cfg s a t) : Single prog t := by
  -- The quantum is zero, so no turn of the polling loop is taken.
  have hnone : ¬ 0 < cfg.timeQuantum := by omega
  have hat := hs
  cases h with
  | dequeues hp =>
      rw [Single, hp] at hat
      exact hat
  | clones hp hnew => rfl
  | applies hp =>
      rw [Single, hp] at hat
      exact hat
  | starts hp =>
      rw [Single, hp] at hat
      exact hat
  | syncs hp =>
      rw [Single, hp] at hat
      exact hat
  | resumes hp hold =>
      rw [Single, hp] at hat
      exact absurd (hat.symm.trans hold) Bool.false_ne_true
  | pollsEnd elapsed status hp hq' hz => exact absurd hq' hnone
  | pollsStop elapsed leader hp hq' hz => exact absurd hq' hnone
  | pollsExpired elapsed hp hq' => exact absurd hq' hnone
  | pollsOn elapsed hp hq' => exact absurd hq' hnone
  | waits elapsed status hp hz =>
      rw [Single, hp] at hat
      exact ⟨hat, resultOf_preempted status⟩
  | collects r hp =>
      rw [Single, hp] at hat
      refine ⟨hat.2, fun hr => ?_⟩
      have hfiles : s.files cfg = (s.out, s.err) := if_pos hat.1
      simp only [hfiles]
      exact collected hf hp hr
  | unwatches r hp =>
      rw [Single, hp] at hat
      exact hat
  | leaves r hp =>
      rw [Single, hp] at hat
      simp only [Single, leave, hat.1, Bool.false_eq_true, if_false, true_and]
      exact hat.2
  | _ => exact hs

/-- The process does the rest of its work. -/
def doWorks (s : State) (ws : List Work) : State :=
  { s with
    out := s.out ++ ws.flatMap Work.out
    err := s.err ++ ws.flatMap Work.err
    trace := s.trace ++ ws }

theorem run_works (ws : List Work) (s : State) (hz : s.process.runnable = true)
    (hw : prog.work = s.trace ++ ws) :
    Lts.run (runOf cfg prog) s (ws.map .work) = some (doWorks s ws) := by
  induction ws generalizing s with
  | nil => simp only [List.map_nil, Lts.run, doWorks, List.flatMap_nil, List.append_nil]
  | cons w ws ih =>
      have hallows : prog.allows s (.work w) = true := by
        simp only [Program.allows, hw, List.getElem?_append_right, Nat.le_refl, Nat.sub_self,
          List.getElem?_cons_zero, beq_self_eq_true]
      have hfirst : runOf cfg prog s (.work w) = some (doWork s w) := by
        simp only [runOf, hallows, step, hz, if_true]
      have hrest : prog.work = (doWork s w).trace ++ ws := by
        rw [hw, doWork, List.append_assoc, List.singleton_append]
      rw [List.map_cons, Lts.run_cons]
      refine ⟨doWork s w, hfirst, ?_⟩
      rw [ih (doWork s w) hz hrest]
      simp only [doWorks, doWork, List.flatMap_cons, List.append_assoc, List.singleton_append]

/-- The end of the process, and what the worker does about it. -/
def ending (prog : Program) : List Action :=
  [.exits prog.status, .waitpid, .collect, .destroyWatchdog, .destroyLimiter]

theorem run_ending (hq : cfg.timeQuantum = 0) {elapsed : Nat}
    (hout : s.out = s.trace.flatMap Work.out) (herr : s.err = s.trace.flatMap Work.err)
    (hp : s.phase = .waiting elapsed) (hz : s.process.runnable = true) (hw : s.trace = prog.work)
    (hhome : s.rootfs = s.home) :
    ∃ t, Lts.run (runOf cfg prog) s (ending prog) = some t ∧ t.phase = .done prog.result := by
  have hresult : prog.result =
      { resultOf (.exited prog.status) with stdoutOut := s.out, stderrOut := s.err } := by
    rw [hout, herr, hw]
    rfl
  simp [ending, Lts.run, runOf, step, Program.allows, hp, hz, hw, hq, hhome, collect, leave,
    State.files, hresult]

/-- The launch of the job. -/
def launching : List Action := [.dequeue, .clone, .applyToPid, .startWatchdog, .sync]

/-- Without preemption, a program has exactly one result. -/
theorem nonPreemptive_iff (limiter watchdog : Bool) (elsewhere : Nat → Bytes × Bytes) (dir : Nat)
    (prog : Program) (res : ExecutionResult) :
    NonPreemptive limiter watchdog elsewhere dir prog res ↔ res = prog.result := by
  constructor
  · rintro ⟨as, s, hrun, hphase, hsignal⟩
    have hboth : Follows prog s ∧ Single prog s := by
      refine Lts.run_invariant (P := fun s => Follows prog s ∧ Single prog s)
        (fun s a t hs h => ?_) ⟨follows_init dir, rfl⟩ hrun
      rcases runOf_moves h with ⟨ha, hm⟩
      exact ⟨follows_moves hs.1 ha hm, single_moves rfl hs.1 hs.2 hm⟩
    have hdone := hboth.2
    rw [Single, hphase] at hdone
    exact hdone.2 hsignal
  · rintro rfl
    -- launch, do all the work, exit
    let cfg : Config := ⟨limiter, watchdog, 0, elsewhere⟩
    have hlaunch : ∃ s, Lts.run (runOf cfg prog) (init dir) launching = some s ∧
        s.phase = .waiting 0 ∧ s.process = .running false ∧ s.trace = [] ∧ s.rootfs = s.home ∧
        s.out = [] ∧ s.err = [] := ⟨_, rfl, rfl, rfl, rfl, rfl, rfl, rfl⟩
    rcases hlaunch with ⟨s, hlaunch, hphase, hrunning, htrace, hhome, hout, herr⟩
    have hz : s.process.runnable = true := by
      rw [hrunning]
      rfl
    have hworks : Lts.run (runOf cfg prog) s (prog.work.map .work) = some (doWorks s prog.work) :=
      run_works prog.work s hz (by rw [htrace, List.nil_append])
    have hend : ∃ t, Lts.run (runOf cfg prog) (doWorks s prog.work) (ending prog) = some t ∧
        t.phase = .done prog.result := by
      refine run_ending rfl ?_ ?_ hphase hz ?_ hhome
      · simp only [doWorks, hout, htrace, List.nil_append]
      · simp only [doWorks, herr, htrace, List.nil_append]
      · simp only [doWorks, htrace, List.nil_append]
    rcases hend with ⟨t, hend, hdone⟩
    have hrun := Lts.run_append.mpr ⟨s, hlaunch, Lts.run_append.mpr ⟨_, hworks, hend⟩⟩
    exact ⟨_, t, hrun, hdone, rfl⟩

/-! ## Under any quantum -/

/-- The state agrees with the program, and no signal ended the process. -/
structure Intact (prog : Program) (s : State) : Prop extends Follows prog s where
  unsignaled : ∀ r, s.phase = .ended r → r.termSignal = 0

/-- A step from a transparent state preserves what `Intact` says. -/
theorem intact_moves {res : ExecutionResult} (hi : Intact prog s) (hs : Transparent res s)
    (ha : prog.allows s a = true) (h : Moves cfg s a t) : Intact prog t := by
  refine ⟨follows_moves hi.toFollows ha h, fun r hr => ?_⟩
  -- Transparency says that no zombie was signaled, so what the wait sees is an exit.
  have hreaped : ∀ status, s.process = .zombie status → (resultOf status).termSignal = 0 := by
    intro status hz
    cases status with
    | exited code => rfl
    | signaled sig => exact absurd hz (hs.unharmed sig)
  cases h with
  | pollsEnd elapsed status hp hq hz => exact Phase.ended.inj hr ▸ hreaped status hz
  | waits elapsed status hp hz => exact Phase.ended.inj hr ▸ hreaped status hz
  | leaves r' hp =>
      by_cases hr' : r'.preempted = true <;>
        simp only [leave, hr', if_true, if_false, Bool.false_eq_true, reduceCtorEq] at hr
  | fires hrun hz => exact hi.unsignaled r hr
  | works w hz => exact hi.unsignaled r hr
  | exits code hz => exact hi.unsignaled r hr
  | dies sig hz he => exact hi.unsignaled r hr
  | groups leader hz => exact hi.unsignaled r hr
  | continues leader reported hz => exact hi.unsignaled r hr
  | changes dir => exact hi.unsignaled r hr
  | _ => exact absurd hr (by simp only [begin, collect, reduceCtorEq, not_false_eq_true])

/-- A step that signals nothing to death and returns nothing new. -/
theorem Transparent.keep {res : ExecutionResult} (hs : Transparent res s)
    (hz : ∀ w, t.process = .zombie w → s.process = .zombie w ∨ ∃ code, w = .exited code)
    (hr : ∀ r, t.phase.result = some r → s.phase.result = some r) : Transparent res t where
  unharmed := by
    intro sig h
    rcases hz _ h with hz | ⟨code, hcode⟩
    · exact hs.unharmed sig hz
    · exact absurd hcode (by simp only [reduceCtorEq, not_false_eq_true])
  result := fun r h => hs.result r (hr r h)

/-- A kill is transparent exactly when the process has ended. -/
theorem kill_transparent {p : Process} (hz : ∀ sig, p ≠ .zombie (.signaled sig)) :
    (∀ sig, p.kill ≠ .zombie (.signaled sig)) ↔ p.alive = false := by
  constructor
  · intro h
    refine Bool.eq_false_iff.mpr fun halive => h 9 ?_
    rw [Process.kill, if_pos halive]
  · intro h sig
    rw [Process.kill, if_neg (by rw [h]; exact Bool.false_ne_true)]
    exact hz sig

/-- Reading the output yields the program's result exactly when it is read
    below the directory of the launch, or finds the same there. -/
theorem collect_transparent {r : ExecutionResult} (hi : Intact prog s)
    (hs : Transparent prog.result s) (hp : s.phase = .ended r) :
    Transparent prog.result (collect cfg s r) ↔
      s.rootfs = s.home ∨ cfg.elsewhere s.rootfs = (s.out, s.err) := by
  -- The result is the program's iff the two files read are the ones it wrote.
  have hfiles : s.files cfg = (s.out, s.err) ↔
      s.rootfs = s.home ∨ cfg.elsewhere s.rootfs = (s.out, s.err) := by
    unfold State.files
    by_cases hhome : s.rootfs = s.home
    · rw [if_pos hhome]
      exact iff_of_true rfl (Or.inl hhome)
    · rw [if_neg hhome]
      exact ⟨Or.inr, fun h => h.resolve_left hhome⟩
  have hresult := collected hi.toFollows hp (hi.unsignaled r hp)
  -- A result read off a wait status is final.
  have hnot : r.preempted = false := by
    rw [((hi.ended r hp).2 (hi.unsignaled r hp)).2]
    exact resultOf_preempted _
  have hreturned : (collect cfg s r).phase.result =
      some { r with stdoutOut := (s.files cfg).1, stderrOut := (s.files cfg).2 } :=
    if_neg (by rw [hnot]; exact Bool.false_ne_true)
  rw [← hfiles]
  constructor
  · intro h
    have hsame := h.result _ hreturned
    rw [← hresult, ExecutionResult.mk.injEq] at hsame
    exact Prod.ext hsame.2.2.2.2.1 hsame.2.2.2.2.2
  · intro h
    refine ⟨hs.unharmed, fun r' hr' => ?_⟩
    rw [hreturned, h, Option.some.injEq] at hr'
    exact hr'.symm.trans hresult

/-- A step keeps transparency exactly when it is harmless. -/
theorem transparent_moves (hi : Intact prog s) (hs : Transparent prog.result s)
    (ha : prog.allows s a = true) (h : Moves cfg s a t) :
    Transparent prog.result t ↔ Harmless cfg s a := by
  cases h with
  | dequeues hp => exact iff_of_true (hs.keep (fun _ => Or.inl) fun r hr => by cases hr) trivial
  | clones hp hnew =>
      exact iff_of_true (hs.keep (fun _ h => by cases h) fun r hr => by cases hr) trivial
  | applies hp => exact iff_of_true (hs.keep (fun _ => Or.inl) fun r hr => by cases hr) trivial
  | starts hp => exact iff_of_true (hs.keep (fun _ => Or.inl) fun r hr => by cases hr) trivial
  | syncs hp =>
      refine iff_of_true (hs.keep (fun w h => Or.inl ?_) fun r hr => by cases hr) trivial
      exact Process.enter_eq_zombie h
  | resumes hp hold =>
      refine iff_of_true (hs.keep (fun w h => Or.inl ?_) fun r hr => by cases hr) trivial
      exact Process.continueGroup_eq_zombie h
  | pollsEnd elapsed status hp hq hz =>
      exact iff_of_true (hs.keep (fun _ h => by cases h) fun r hr => by cases hr) trivial
  | pollsStop elapsed leader hp hq hz =>
      exact iff_of_true (hs.keep (fun _ h => by cases h) fun r hr => by cases hr) trivial
  | pollsExpired elapsed hp hq =>
      refine iff_of_true (hs.keep (fun w h => Or.inl ?_) fun r hr => by cases hr) trivial
      exact Process.stopGroup_eq_zombie h
  | pollsOn elapsed hp hq =>
      exact iff_of_true (hs.keep (fun _ => Or.inl) fun r hr => by cases hr) trivial
  | waits elapsed status hp hz =>
      exact iff_of_true (hs.keep (fun _ h => by cases h) fun r hr => by cases hr) trivial
  | collects r hp => exact collect_transparent hi hs hp
  | unwatches r hp =>
      refine iff_of_true (hs.keep (fun _ => Or.inl) fun r' hr => ?_) trivial
      rw [hp]
      exact hr
  | leaves r hp =>
      have hresult : ∀ r', (leave s r).phase.result = some r' → s.phase.result = some r' := by
        intro r' hr'
        rw [hp]
        by_cases hr : r.preempted = true
        · simp only [leave, if_pos hr, Phase.result, reduceCtorEq] at hr'
        · simpa only [leave, if_neg hr, Phase.result] using hr'
      -- destroying the limiter is a kill exactly when the process is in its cgroup
      by_cases hheld : s.held = true
      -- the destructor's kill does no harm only to a process that has ended
      · have hkill := kill_transparent hs.unharmed
        have hprocess : (leave s r).process = s.process.kill := if_pos hheld
        constructor
        · intro h
          exact Or.inr (hkill.mp fun sig => hprocess ▸ h.unharmed sig)
        · intro h
          have hdead := h.resolve_left (by simp only [hheld, Bool.true_eq_false,
            not_false_eq_true])
          exact ⟨fun sig => hprocess ▸ hkill.mpr hdead sig,
            fun r' hr' => hs.result r' (hresult r' hr')⟩
      · have hprocess : (leave s r).process = s.process := if_neg hheld
        refine iff_of_true (hs.keep (fun w h => Or.inl (hprocess ▸ h)) hresult) ?_
        exact Or.inl (Bool.eq_false_iff.mpr hheld)
  | fires hrun hz =>
      have hkill := kill_transparent hs.unharmed
      exact ⟨fun h => hkill.mp h.unharmed, fun h => ⟨hkill.mpr h, hs.result⟩⟩
  | works w hz => exact iff_of_true ⟨hs.unharmed, hs.result⟩ trivial
  | exits code hz =>
      refine iff_of_true (hs.keep (fun w h => Or.inr ⟨code, ?_⟩) fun r => id) trivial
      exact (Process.zombie.inj h).symm
  | dies sig hz he => exact absurd ha Bool.false_ne_true
  | groups leader hz =>
      exact iff_of_true (hs.keep (fun _ h => by cases h) fun r => id) trivial
  | continues leader reported hz =>
      exact iff_of_true (hs.keep (fun _ h => by cases h) fun r => id) trivial
  | changes dir => exact iff_of_true ⟨hs.unharmed, hs.result⟩ trivial

theorem intact_init (dir : Nat) : Intact prog (init dir) where
  toFollows := follows_init dir
  unsignaled := fun r h => absurd h (by simp only [init, reduceCtorEq, not_false_eq_true])

theorem transparent_init (res : ExecutionResult) (dir : Nat) : Transparent res (init dir) where
  unharmed := fun sig => by simp only [init, ne_eq, reduceCtorEq, not_false_eq_true]
  result := fun r h => absurd h (by simp only [init, Phase.result, reduceCtorEq, not_false_eq_true])

/-- For every program and whatever it yields without preemption, every quantum,
    with or without a limiter and a watchdog, and every sequence of bursts: no
    signal ends the process and the result is the same, if and only if no
    watchdog fires on the living process, no limiter is destroyed while the
    process lives in its cgroup, and the output is read below the directory of
    the launch or below one that holds the same two files. -/
theorem transparent_iff_harmless (limiter watchdog : Bool) (elsewhere : Nat → Bytes × Bytes)
    (dir : Nat) (prog : Program) (res : ExecutionResult)
    (hres : NonPreemptive limiter watchdog elsewhere dir prog res) (timeQuantum : Int)
    (as : List Action) :
    Lts.Always (runOf ⟨limiter, watchdog, timeQuantum, elsewhere⟩ prog) (Transparent res)
        (init dir) as ↔
      Lts.Along (runOf ⟨limiter, watchdog, timeQuantum, elsewhere⟩ prog)
        (Harmless ⟨limiter, watchdog, timeQuantum, elsewhere⟩) (init dir) as := by
  rw [(nonPreemptive_iff limiter watchdog elsewhere dir prog res).mp hres]
  refine Lts.always_iff_along (I := Intact prog) (fun s a t hi hs h => ?_)
    (fun s a t hi hs h => ?_) as (intact_init dir) (transparent_init _ dir)
  · rcases runOf_moves h with ⟨ha, hm⟩
    exact intact_moves hi hs ha hm
  · rcases runOf_moves h with ⟨ha, hm⟩
    exact transparent_moves hi hs ha hm

/-- A program that prints two bytes. -/
def greeting : Program where
  work := [.writeOut (ascii "hi")]
  status := 0

/-- The greeting, stopped before it prints and resumed without a limiter. -/
def interruptedGreeting : List Action :=
  [.dequeue, .clone, .applyToPid, .startWatchdog, .sync, .group true, .poll, .poll, .poll,
    .destroyWatchdog, .destroyLimiter, .dequeue, .resume, .work (.writeOut (ascii "hi")),
    .exits 0, .poll, .collect, .destroyWatchdog, .destroyLimiter]

/-- Without a limiter, the interrupted greeting yields what it prints. -/
theorem transparent_greeting :
    Lts.Always (runOf ⟨false, true, 1, fun _ => ([], [])⟩ greeting)
      (Transparent { exitCode := 0, success := true, stdoutOut := ascii "hi" }) (init 0)
      interruptedGreeting := by
  have hyields : NonPreemptive false true (fun _ => ([], [])) 0 greeting greeting.result :=
    (nonPreemptive_iff _ _ _ _ _ _).mpr rfl
  exact (transparent_iff_harmless false true _ 0 greeting _ hyields 1 interruptedGreeting).mpr
    (by decide)

/-- One preemption under a limiter kills the job: its destructor finds the
    stopped process in the cgroup. -/
theorem preemption_kills : ¬ ∀ (limiter watchdog : Bool) (elsewhere : Nat → Bytes × Bytes)
    (dir : Nat) (prog : Program) (res : ExecutionResult),
    NonPreemptive limiter watchdog elsewhere dir prog res → ∀ timeQuantum : Int, 0 < timeQuantum →
    ∀ as : List Action, Lts.Always (runOf ⟨limiter, watchdog, timeQuantum, elsewhere⟩ prog)
      (Transparent res) (init dir) as := by
  intro hall
  -- Launched, stopped at the end of its quantum, and killed as `execute` returns.
  have hkilled : ∃ t, Lts.run (runOf ⟨true, true, 1, fun _ => ([], [])⟩ greeting) (init 0)
      [.dequeue, .clone, .applyToPid, .startWatchdog, .sync, .group true, .poll, .poll, .poll,
        .destroyWatchdog, .destroyLimiter] = some t ∧
      t.process = .zombie (.signaled 9) := ⟨_, rfl, rfl⟩
  rcases hkilled with ⟨t, hrun, hsignal⟩
  have hyields : NonPreemptive true true (fun _ => ([], [])) 0 greeting greeting.result :=
    (nonPreemptive_iff _ _ _ _ _ _).mpr rfl
  have htransparent := Lts.always_end (hall true true _ 0 greeting _ hyields 1 Int.one_pos _) hrun
  exact htransparent.unharmed 9 hsignal

end Lifecycle

end Isolyx
