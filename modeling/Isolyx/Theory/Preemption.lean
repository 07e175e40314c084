import Isolyx.Core.ProcessGroup
import Isolyx.Library.Run

/-!
# Whether a Preempted Job is Stopped

The engine stops a group and hears of one process. A job whose processes are
all in the group of its main process when `SIGSTOP` is sent is frozen at that
moment, and a frozen job does nothing: it can fork, leave the group or send a
`SIGCONT` only with a process that runs. So when the stop is reported, whenever
that is, all of it is still stopped.

A process that has left the group is not hit by the signal, and goes on running
after `isolateAndRun` has returned with `preempted = true`. A main process that
has left its group, or has not made it yet when a short quantum expires, is not
hit either.

## Main definitions

* `Frozen`: No process of the job runs.
* `Halted`: A preempted job is frozen, and no `SIGSTOP` missed the main process.
* `Confined`: When `SIGSTOP` is sent, what runs is in the group.
* `Inv`: A main process that was stopped stands for the whole job.

## Theorems

* `not_frozen_of_runs`: A frozen job does nothing.
* `frozen_stop`: `SIGSTOP` freezes a job that is in the group.
* `inv_moves`: A step keeps the invariant, if it is confined.
* `preempted_stopped`: A preempted job is stopped, in every confined run.
* `preempted_stopped_forks`: The same for a job of two processes.
* `leaves_group`: A process that made a group of its own runs on.
-/

namespace Isolyx

namespace ProcessGroup

/-- No process of the job runs. -/
def Frozen (s : State) : Prop := ∀ pid, s.runs pid = none

/-- A preempted job is frozen, and no `SIGSTOP` missed the main process. -/
structure Halted (s : State) : Prop where
  stopped : s.phase = .preempted → Frozen s
  reached : s.missed = 0

/-- When `SIGSTOP` is sent, a living main process is in the group, and so is
    every process that runs. -/
def Confined (s : State) : Action → Prop
  | .stopGroup => (∀ p, s.procs s.main = some p → p.group = s.main) ∧
      ∀ pid p, s.runs pid = some p → p.group = s.main
  | _ => True

/-- A main process whose stop was not reported yet stands for the whole job, and
    that of a preempted job had its stop reported. -/
structure Inv (s : State) : Prop where
  halted : Halted s
  pending : ∀ p, s.procs s.main = some p → p.status = .stopped false → Frozen s
  reported : s.phase = .preempted → ∀ p, s.procs s.main = some p → p.status = .stopped true

theorem runs_eq_some {s : State} {pid : Nat} {p : Proc} :
    s.runs pid = some p ↔ s.procs pid = some p ∧ p.status = .running := by
  rw [State.runs, Option.filter_eq_some_iff, decide_eq_true_eq]

/-- Nothing runs, if no process there is does. -/
theorem frozen_iff {s : State} :
    Frozen s ↔ ∀ pid p, s.procs pid = some p → p.status ≠ .running := by
  constructor
  · intro h pid p hp hrun
    have hsome := runs_eq_some.mpr ⟨hp, hrun⟩
    rw [h pid] at hsome
    cases hsome
  · intro h pid
    rw [Option.eq_none_iff_forall_ne_some]
    intro p hp
    exact h pid p (runs_eq_some.mp hp).1 (runs_eq_some.mp hp).2

/-- A frozen job does nothing. -/
theorem not_frozen_of_runs {s : State} {pid : Nat} {p : Proc} (hp : s.runs pid = some p) :
    ¬ Frozen s := by
  intro hf
  rw [hf pid] at hp
  cases hp

/-! ## Signals -/

theorem stop_ne_running (st : Status) : Signal.stop.act st ≠ .running := by
  cases st <;> exact Status.noConfusion

theorem signalGroup_eq_some {procs : Nat → Option Proc} {group pid : Nat} {sig : Signal}
    {q : Proc} : signalGroup procs group sig pid = some q ↔
      ∃ p, procs pid = some p ∧ (if p.group = group then p.signal sig else p) = q := by
  rw [signalGroup, Option.map_eq_some_iff]

/-- `SIGSTOP` freezes a job what runs of which is in the group. -/
theorem frozen_stop {s : State} (h : ∀ pid p, s.runs pid = some p → p.group = s.main)
    {phase : Phase} {missed : Nat} : Frozen
      { s with phase := phase, procs := signalGroup s.procs s.main .stop, missed := missed } := by
  rw [frozen_iff]
  intro pid q hq hrun
  rcases signalGroup_eq_some.mp hq with ⟨p, hp, rfl⟩
  split at hrun
  · exact stop_ne_running p.status hrun
  · rename_i hgroup
    exact hgroup (h pid p (runs_eq_some.mpr ⟨hp, hrun⟩))

theorem misses_eq {s : State} (h : ∀ p, s.procs s.main = some p → p.group = s.main) :
    s.misses = s.missed := by
  rw [State.misses]
  split
  · rename_i p hp
    rw [if_pos (h p hp)]
  · rfl

/-! ## Steps -/

theorem procs_setProc (s : State) (pid pid' : Nat) (o : Option Proc) :
    (setProc s pid o).procs pid' = if pid' = pid then o else s.procs pid' :=
  Function.update_apply _ _ _ _

/-- A frozen job stays frozen when a process is stopped or gone. -/
theorem frozen_setProc {s : State} (hf : Frozen s) {pid : Nat} {o : Option Proc} {phase : Phase}
    (h : ∀ p, o = some p → p.status ≠ .running) :
    Frozen { setProc s pid o with phase := phase } := by
  rw [frozen_iff] at hf ⊢
  intro pid' p hp
  rw [procs_setProc] at hp
  split at hp
  · exact h p hp
  · exact hf pid' p hp

/-- While a process runs, the job is neither preempted nor is the stop of its
    main process pending. What a process does keeps the invariant, unless it
    makes that stop pending. -/
theorem inv_acts {s : State} (hi : Inv s) {pid target : Nat} {p : Proc} {o : Option Proc}
    (hp : s.runs pid = some p)
    (h : target = s.main → ∀ q, o = some q → q.status = .stopped false →
      ∃ q', s.procs s.main = some q' ∧ q'.status = .stopped false) :
    Inv (setProc s target o) := by
  have hawake := not_frozen_of_runs hp
  have hphase : s.phase ≠ .preempted := fun hs => hawake (hi.halted.stopped hs)
  refine ⟨⟨fun hs => absurd hs hphase, hi.halted.reached⟩, fun q hq hstatus => ?_,
    fun hs => absurd hs hphase⟩
  refine absurd ?_ hawake
  rw [procs_setProc] at hq
  split at hq
  · rename_i hmain
    rcases h hmain.symm q hq hstatus with ⟨q', hq', hstatus'⟩
    exact hi.pending q' hq' hstatus'
  · exact hi.pending q hq hstatus

/-- A step keeps the invariant, if it is confined. -/
theorem inv_moves {s t : State} {a : Action} (hi : Inv s) (hc : Confined s a) (h : Moves s a t) :
    Inv t := by
  cases h with
  | clones pid hs =>
      refine ⟨⟨Phase.noConfusion, hi.halted.reached⟩, fun p hp hstatus => ?_, Phase.noConfusion⟩
      rw [procs_setProc, if_pos rfl, Option.some.injEq] at hp
      rw [← hp] at hstatus
      exact Status.noConfusion hstatus
  | resumes hs =>
      refine ⟨⟨Phase.noConfusion, hi.halted.reached⟩, fun q hq hstatus => ?_, Phase.noConfusion⟩
      -- the stop of the main process was reported, and is continued or stays so
      rcases signalGroup_eq_some.mp hq with ⟨p, hp, rfl⟩
      split at hstatus
      · exact Status.noConfusion hstatus
      · rw [hi.reported hs p hp] at hstatus
        cases hstatus
  | sleeps elapsed hs =>
      exact ⟨⟨Phase.noConfusion, hi.halted.reached⟩, hi.pending, Phase.noConfusion⟩
  | stops elapsed hs =>
      exact ⟨⟨Phase.noConfusion, (misses_eq hc.1).trans hi.halted.reached⟩,
        fun _ _ _ => frozen_stop hc.2, Phase.noConfusion⟩
  | reports elapsed p hs hm hp =>
      have hf : Frozen s := hi.pending p hm hp
      have hmain : (setProc s s.main (some { p with status := .stopped true })).procs s.main =
          some { p with status := .stopped true } := by
        rw [procs_setProc, if_pos rfl]
      refine ⟨⟨fun _ => frozen_setProc hf fun q hq => ?_, hi.halted.reached⟩,
        fun q hq hstatus => ?_, fun _ q hq => ?_⟩
      · rw [← Option.some.inj hq]
        exact Status.noConfusion
      · rw [← Option.some.inj (hmain.symm.trans hq)] at hstatus
        cases hstatus
      · rw [← Option.some.inj (hmain.symm.trans hq)]
  | ends elapsed hs =>
      exact ⟨⟨Phase.noConfusion, hi.halted.reached⟩, hi.pending, Phase.noConfusion⟩
  | enters pid target group p hp =>
      refine inv_acts hi hp fun hmain q hq hstatus => ?_
      rcases Option.map_eq_some_iff.mp hq with ⟨q', hq', rfl⟩
      exact ⟨q', hmain ▸ hq', hstatus⟩
  | forks pid child p hp hc =>
      refine inv_acts hi hp fun _ q hq hstatus => ?_
      rw [← Option.some.inj hq, (runs_eq_some.mp hp).2] at hstatus
      cases hstatus
  | ignores pid p hp => exact hi
  | signals pid target sig p hp hne =>
      refine inv_acts hi hp fun hmain q hq hstatus => ?_
      rcases Option.map_eq_some_iff.mp hq with ⟨q', _, rfl⟩
      cases sig with
      | stop => exact absurd ⟨hmain, rfl⟩ hne
      | cont => cases hstatus
  | dies =>
      exact ⟨⟨fun _ _ => rfl, hi.halted.reached⟩, fun _ _ _ _ => rfl, fun _ _ hp => by cases hp⟩
  | exits pid hne =>
      have hmain : (setProc s pid none).procs s.main = s.procs s.main := by
        rw [procs_setProc, if_neg (Ne.symm hne)]
      have hf : Frozen s → Frozen (setProc s pid none) := fun hf =>
        frozen_setProc hf fun _ hq => by cases hq
      exact ⟨⟨fun hs => hf (hi.halted.stopped hs), hi.halted.reached⟩,
        fun p hp hstatus => hf (hi.pending p (hmain ▸ hp) hstatus),
        fun hs p hp => hi.reported hs p (hmain ▸ hp)⟩

theorem inv_init : Inv init := by
  refine ⟨⟨Phase.noConfusion, rfl⟩, fun p hp => ?_, Phase.noConfusion⟩
  simp only [init, reduceCtorEq] at hp

/-- In a run in which every process that runs is in the group of the main
    process whenever `SIGSTOP` is sent, and so is the main process, a preempted
    job is stopped and no `SIGSTOP` misses the main process. -/
theorem preempted_stopped (quantum : Int) (actions : List Action)
    (h : Lts.Along (step quantum) Confined init actions) :
    Lts.Always (step quantum) Halted init actions := by
  have hall : Lts.Always (step quantum) Inv init actions :=
    Lts.always_of_along (fun _ _ _ hi hc ht => inv_moves hi hc (moves_of_step ht)) actions
      inv_init h
  exact hall.imp fun _ hi => hi.halted

/-- The main process makes its group, forks and is preempted. -/
def forks : List Action :=
  [.clone 10, .enterGroup 10 10 10, .fork 10 11, .sleep, .stopGroup, .reportStop, .resume]

/-- Both of its processes are stopped then. -/
theorem preempted_stopped_forks :
    (Lts.run (step 1) init forks).isSome ∧ Lts.Always (step 1) Halted init forks := by
  refine ⟨rfl, preempted_stopped 1 forks fun s₁ h₁ => ⟨trivial, fun s₂ h₂ => ⟨trivial,
    fun s₃ h₃ => ⟨trivial, fun s₄ h₄ => ⟨trivial, fun s₅ h₅ => ⟨?_, fun s₆ h₆ => ⟨trivial,
    fun s₇ h₇ => ⟨trivial, trivial⟩⟩⟩⟩⟩⟩⟩⟩
  obtain rfl := Option.some.inj h₁
  obtain rfl := Option.some.inj h₂
  obtain rfl := Option.some.inj h₃
  obtain rfl := Option.some.inj h₄
  refine ⟨fun p hp => by cases hp; rfl, fun pid p hp => ?_⟩
  have hprocs := (runs_eq_some.mp hp).1
  simp only [procs_setProc] at hprocs
  split at hprocs
  · cases hprocs
    rfl
  · split at hprocs
    · cases hprocs
      rfl
    · cases hprocs

/-- The child makes a group of its own before the quantum expires. -/
def leaves : List Action :=
  [.clone 10, .enterGroup 10 10 10, .fork 10 11, .enterGroup 11 11 11, .sleep, .stopGroup,
    .reportStop]

/-- That child runs on when the job is preempted. -/
theorem leaves_group : ¬ ∀ (quantum : Int) (actions : List Action),
    Lts.Always (step quantum) Halted init actions := by
  intro h
  have hend := Lts.always_end (h 1 leaves) rfl
  exact absurd (hend.stopped rfl 11) (by decide)

end ProcessGroup

end Isolyx
