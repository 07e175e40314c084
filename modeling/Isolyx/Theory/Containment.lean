import Isolyx.Core.Lifecycle

/-!
# Containment over the Life of a Job

Whether a job's process is ever runnable outside the cgroup of a live limiter
or without a running watchdog. The burst that launches it puts both in place
before the sync byte. A later burst makes a new limiter and a new watchdog,
sends `SIGCONT`, and uses neither.

What holds at each place of the worker is `Placed`, which every step preserves
as long as the process was contained so far. On such states three kinds of
steps can end containment, and `Complies` says when they do: a burst that finds
the job launched always does; the watchdog's destructor does when someone else
has continued the process since its stop was reported; and continuing it does
when the watchdog is gone and the limiter is about to be destroyed.

## Main definitions

* `Established`: The limiter of the burst holds the process, and its watchdog
  runs.
* `Contained`: A runnable process, and one a burst waits for, is in such hands.
* `Placed`: What holds at each place of the worker.
* `Complies`: The step leaves nothing uncontained.

## Theorems

* `placed_moves`: A step from a contained state preserves `Placed`.
* `contained_moves`: A step keeps containment exactly when it complies.
* `contained_iff_complies`: So does a run.
* `resume_uncontained`: A preempted job is resumed with nothing in place.
-/

namespace Isolyx

namespace Lifecycle

variable {cfg : Config} {s t : State} {a : Action}

/-- The process is in the cgroup of the limiter of the burst under way, and the
    watchdog of that burst runs on it. -/
def Established (s : State) : Prop := s.held = true ∧ s.watchdog = some .running

/-- A runnable process has its limiter and its watchdog, and so has one that a
    burst waits for. -/
structure Contained (s : State) : Prop where
  runnable : s.process.runnable = true → Established s
  waiting : ∀ elapsed, s.phase = .waiting elapsed → Established s

/-- What holds at each place of the worker while the process was contained. -/
def Placed (s : State) : Prop :=
  match s.phase with
  | .queued => s.process.alive = false
  | .made => s.process.alive = false ∧ s.limiter.isSome = true ∧ s.watchdog = some .idle
  | .cloned => s.process = .entering ∧ s.limiter.isSome = true ∧ s.watchdog = some .idle
  | .limited => s.process = .entering ∧ s.held = true ∧ s.watchdog = some .idle
  | .watched => s.process = .entering ∧ Established s
  | .waiting _ => True
  | .ended r => s.process.alive = false ∧ r.preempted = false
  | .returned r => if r.preempted then Established s else s.process.alive = false
  | .unwatched r =>
      s.watchdog = none ∧ if r.preempted then s.held = true else s.process.alive = false
  | .done _ => s.process.alive = false

/-- The step takes up no job that was launched before, destroys no watchdog of
    a runnable process, and does not continue a process whose watchdog is gone. -/
def Complies (s : State) : Action → Prop
  | .resume => False
  | .destroyWatchdog => s.process.runnable = false
  | .continued => ∀ r, s.phase ≠ .unwatched r
  | _ => True

/-! ## Processes -/

theorem Process.runnable_of_not_alive {p : Process} (h : p.alive = false) :
    p.runnable = false := by
  cases p with
  | running leader => exact absurd h (by simp only [alive, Bool.true_eq_false, not_false_eq_true])
  | _ => rfl

theorem Process.alive_of_runnable {p : Process} (h : p.runnable = true) : p.alive = true := by
  cases p with
  | running leader => rfl
  | _ => exact absurd h (by simp only [runnable, Bool.false_eq_true, not_false_eq_true])

theorem Process.ne_entering_of_runnable {p : Process} (h : p.runnable = true) :
    p ≠ .entering := by
  intro hp
  rw [hp] at h
  exact Bool.false_ne_true h

@[simp]
theorem Process.kill_alive (p : Process) : p.kill.alive = false := by
  unfold kill
  by_cases h : p.alive = true
  · rw [if_pos h]
    rfl
  · rw [if_neg h]
    exact Bool.not_eq_true _ ▸ h

theorem Process.kill_of_not_alive {p : Process} (h : p.alive = false) : p.kill = p := by
  rw [kill, if_neg (by rw [h]; exact Bool.false_ne_true)]

@[simp]
theorem Process.enter_alive (p : Process) : p.enter.alive = p.alive := by
  cases p <;> rfl

@[simp]
theorem Process.stopGroup_alive (p : Process) : p.stopGroup.alive = p.alive := by
  unfold stopGroup
  split <;> rfl

@[simp]
theorem Process.continueGroup_alive (p : Process) : p.continueGroup.alive = p.alive := by
  unfold continueGroup
  split <;> rfl

/-! ## Steps -/

/-- A process that is past the sync byte and has not ended may change in any way. -/
theorem Placed.setProcess (hs : Placed s) (p : Process) (hz : s.process.alive = true)
    (he : s.process ≠ .entering) : Placed { s with process := p } := by
  have hno : s.process.alive ≠ false := by
    simp only [hz, ne_eq, Bool.true_eq_false, not_false_eq_true]
  unfold Placed at hs ⊢
  -- Only the places where a burst waits or has returned allow for such a process.
  cases hp : s.phase with
  | queued => rw [hp] at hs; exact absurd hs hno
  | made => rw [hp] at hs; exact absurd hs.1 hno
  | cloned => rw [hp] at hs; exact absurd hs.1 he
  | limited => rw [hp] at hs; exact absurd hs.1 he
  | watched => rw [hp] at hs; exact absurd hs.1 he
  | waiting elapsed => trivial
  | ended r => rw [hp] at hs; exact absurd hs.1 hno
  | returned r =>
      rw [hp] at hs
      by_cases hr : r.preempted = true
      · simp only [hr, if_true] at hs ⊢
        exact hs
      · simp only [if_neg hr] at hs
        exact absurd hs hno
  | unwatched r =>
      rw [hp] at hs
      by_cases hr : r.preempted = true
      · simp only [hr, if_true] at hs ⊢
        exact hs
      · simp only [if_neg hr] at hs
        exact absurd hs.2 hno
  | done r => rw [hp] at hs; exact absurd hs hno

/-- A step from a contained state preserves what holds at each place. -/
theorem placed_moves (hl : cfg.limiter = true) (hw : cfg.watchdog = true) (hs : Placed s)
    (hc : Contained s) (h : Moves cfg s a t) : Placed t := by
  have hat := hs
  cases h with
  | dequeues hp =>
      rw [Placed, hp] at hat
      simp only [Placed, begin, hl, hw, if_true, Option.isSome_some, and_self, and_true]
      exact hat
  | clones hp hnew =>
      rw [Placed, hp] at hat
      exact ⟨rfl, hat.2⟩
  | applies hp =>
      rw [Placed, hp] at hat
      -- the process joins the cgroup of the limiter of this burst
      refine ⟨hat.1, ?_, hat.2.2⟩
      simp only [State.held, hat.2.1, beq_self_eq_true, Bool.and_self]
  | starts hp =>
      rw [Placed, hp] at hat
      refine ⟨hat.1, hat.2.1, ?_⟩
      simp only [hat.2.2, Option.map_some]
  -- while a burst waits, nothing more is claimed of the place than containment says
  | syncs hp => trivial
  | resumes hp hold => trivial
  | pollsEnd elapsed status hp hq hz =>
      refine ⟨rfl, ?_⟩
      cases status <;> rfl
  | pollsStop elapsed leader hp hq hz => exact hc.waiting elapsed hp
  | pollsExpired elapsed hp hq => trivial
  | pollsOn elapsed hp hq => trivial
  | waits elapsed status hp hz =>
      refine ⟨rfl, ?_⟩
      cases status <;> rfl
  | collects r hp =>
      rw [Placed, hp] at hat
      simp only [Placed, collect, hat.2, Bool.false_eq_true, if_false]
      exact hat.1
  | unwatches r hp =>
      rw [Placed, hp] at hat
      refine ⟨rfl, ?_⟩
      by_cases hr : r.preempted = true
      · simp only [if_pos hr] at hat ⊢
        exact hat.1
      · simp only [if_neg hr] at hat ⊢
        exact hat
  | leaves r hp =>
      rw [Placed, hp] at hat
      by_cases hr : r.preempted = true
      · -- the process is still in the cgroup, so it is killed
        simp only [if_pos hr] at hat
        simp only [Placed, leave, hr, hat.2, if_true, Process.kill_alive]
      · simp only [if_neg hr] at hat
        simp only [Placed, leave, if_neg hr, Process.kill_of_not_alive hat.2, ite_self, hat.2]
  | fires hrun hz =>
      -- a watchdog may fire on a process that is gone
      by_cases halive : s.process.alive = true
      · exact hs.setProcess _ halive hz
      · rw [Process.kill_of_not_alive (Bool.not_eq_true _ ▸ halive)]
        exact hs
  | works w hz => exact hs
  | exits code hz =>
      exact hs.setProcess _ (Process.alive_of_runnable hz) (Process.ne_entering_of_runnable hz)
  | dies sig hz he => exact hs.setProcess _ hz he
  | groups leader hz =>
      exact hs.setProcess _ (Process.alive_of_runnable hz) (Process.ne_entering_of_runnable hz)
  | continues leader reported hz =>
      refine hs.setProcess _ ?_ ?_
      · rw [hz]
        rfl
      · simp only [hz, ne_eq, reduceCtorEq, not_false_eq_true]
  | changes dir => exact hs

/-- A state where nothing is runnable and no burst waits is contained. -/
theorem contained_of_idle (hz : t.process.runnable = false)
    (hp : ∀ elapsed, t.phase ≠ .waiting elapsed) : Contained t :=
  ⟨fun h => absurd (hz.symm.trans h) Bool.false_ne_true, fun elapsed h => absurd h (hp elapsed)⟩

/-- A step that changes nothing but the process, and makes it runnable only if
    it was, keeps containment. -/
theorem Contained.setProcess (hc : Contained s) (p : Process)
    (hz : p.runnable = true → s.process.runnable = true) : Contained { s with process := p } :=
  ⟨fun h => hc.runnable (hz h), hc.waiting⟩

/-- A stopped process is held and watched, unless its watchdog is gone. -/
theorem established_of_stopped {leader reported : Bool} (hs : Placed s) (hc : Contained s)
    (hz : s.process = .stopped leader reported) :
    Established s ↔ ∀ r, s.phase ≠ .unwatched r := by
  have halive : s.process.alive ≠ false := by
    simp only [hz, Process.alive, ne_eq, Bool.true_eq_false, not_false_eq_true]
  have henter : s.process ≠ .entering := by
    simp only [hz, ne_eq, reduceCtorEq, not_false_eq_true]
  rw [Placed] at hs
  cases hp : s.phase with
  | queued => rw [hp] at hs; exact absurd hs halive
  | made => rw [hp] at hs; exact absurd hs.1 halive
  | cloned => rw [hp] at hs; exact absurd hs.1 henter
  | limited => rw [hp] at hs; exact absurd hs.1 henter
  | watched => rw [hp] at hs; exact absurd hs.1 henter
  | waiting elapsed =>
      refine iff_of_true (hc.waiting elapsed hp) fun r => ?_
      simp only [ne_eq, reduceCtorEq, not_false_eq_true]
  | ended r => rw [hp] at hs; exact absurd hs.1 halive
  | returned r =>
      rw [hp] at hs
      by_cases hr : r.preempted = true
      · simp only [if_pos hr] at hs
        refine iff_of_true hs fun r => ?_
        simp only [ne_eq, reduceCtorEq, not_false_eq_true]
      · simp only [if_neg hr] at hs
        exact absurd hs halive
  | unwatched r =>
      rw [hp] at hs
      -- the watchdog was destroyed, the limiter not yet
      refine iff_of_false (fun h => ?_) fun h => h r rfl
      rw [Established, hs.1] at h
      exact absurd h.2 (by simp only [reduceCtorEq, not_false_eq_true])
  | done r => rw [hp] at hs; exact absurd hs halive

/-- A step keeps containment exactly when it complies. -/
theorem contained_moves (hs : Placed s) (hc : Contained s) (h : Moves cfg s a t) :
    Contained t ↔ Complies s a := by
  have hat := hs
  cases h with
  | dequeues hp =>
      rw [Placed, hp] at hat
      refine iff_of_true (contained_of_idle (Process.runnable_of_not_alive hat) fun elapsed => ?_)
        trivial
      simp only [begin, ne_eq, reduceCtorEq, not_false_eq_true]
  | clones hp hnew =>
      refine iff_of_true (contained_of_idle rfl fun elapsed => ?_) trivial
      simp only [ne_eq, reduceCtorEq, not_false_eq_true]
  | applies hp =>
      rw [Placed, hp] at hat
      refine iff_of_true (contained_of_idle (by rw [hat.1]; rfl) fun elapsed => ?_) trivial
      simp only [ne_eq, reduceCtorEq, not_false_eq_true]
  | starts hp =>
      rw [Placed, hp] at hat
      refine iff_of_true (contained_of_idle (by rw [hat.1]; rfl) fun elapsed => ?_) trivial
      simp only [ne_eq, reduceCtorEq, not_false_eq_true]
  | syncs hp =>
      rw [Placed, hp] at hat
      -- the sync byte finds both in place
      exact iff_of_true ⟨fun _ => hat.2, fun _ _ => hat.2⟩ trivial
  | resumes hp hold =>
      rw [Placed, hp] at hat
      -- the watchdog of this burst was never started
      refine iff_of_false (fun hc' => ?_) id
      have hrun := (hc'.waiting 0 rfl).2
      rw [hat.2.2] at hrun
      exact absurd hrun (by simp only [Option.some.injEq, reduceCtorEq, not_false_eq_true])
  | pollsEnd elapsed status hp hq hz =>
      refine iff_of_true (contained_of_idle rfl fun elapsed => ?_) trivial
      simp only [ne_eq, reduceCtorEq, not_false_eq_true]
  | pollsStop elapsed leader hp hq hz =>
      refine iff_of_true (contained_of_idle rfl fun elapsed => ?_) trivial
      simp only [ne_eq, reduceCtorEq, not_false_eq_true]
  | pollsExpired elapsed hp hq =>
      have hest := hc.waiting elapsed hp
      exact iff_of_true ⟨fun _ => hest, fun _ _ => hest⟩ trivial
  | pollsOn elapsed hp hq =>
      have hest := hc.waiting elapsed hp
      exact iff_of_true ⟨fun _ => hest, fun _ _ => hest⟩ trivial
  | waits elapsed status hp hz =>
      refine iff_of_true (contained_of_idle rfl fun elapsed => ?_) trivial
      simp only [ne_eq, reduceCtorEq, not_false_eq_true]
  | collects r hp =>
      rw [Placed, hp] at hat
      refine iff_of_true (contained_of_idle (Process.runnable_of_not_alive hat.1) fun elapsed => ?_)
        trivial
      simp only [collect, ne_eq, reduceCtorEq, not_false_eq_true]
  | unwatches r hp =>
      constructor
      · intro hc'
        -- a process that is runnable now would be left without its watchdog
        refine Bool.eq_false_iff.mpr fun hz => ?_
        exact absurd (hc'.runnable hz).2 (by simp only [reduceCtorEq, not_false_eq_true])
      · intro hz
        refine contained_of_idle hz fun elapsed => ?_
        simp only [ne_eq, reduceCtorEq, not_false_eq_true]
  | leaves r hp =>
      rw [Placed, hp] at hat
      -- the watchdog is gone already, so by containment nothing is runnable
      have hidle : s.process.runnable = false := by
        refine Bool.eq_false_iff.mpr fun hz => ?_
        have hrun := (hc.runnable hz).2
        rw [hat.1] at hrun
        exact absurd hrun (by simp only [reduceCtorEq, not_false_eq_true])
      refine iff_of_true (contained_of_idle ?_ fun elapsed => ?_) trivial
      · change (if s.held then s.process.kill else s.process).runnable = false
        by_cases hheld : s.held = true
        · rw [if_pos hheld]
          exact Process.runnable_of_not_alive (Process.kill_alive _)
        · rw [if_neg hheld]
          exact hidle
      · by_cases hr : r.preempted = true <;>
          simp only [leave, hr, if_true, if_false, Bool.false_eq_true, ne_eq, reduceCtorEq,
            not_false_eq_true]
  | fires hrun hz =>
      refine iff_of_true (hc.setProcess _ fun h => ?_) trivial
      rw [Process.runnable_of_not_alive (Process.kill_alive _)] at h
      exact absurd h Bool.false_ne_true
  | works w hz => exact iff_of_true ⟨hc.runnable, hc.waiting⟩ trivial
  | exits code hz => exact iff_of_true (hc.setProcess _ fun _ => hz) trivial
  | dies sig hz he =>
      exact iff_of_true (hc.setProcess _ fun h => absurd h Bool.false_ne_true) trivial
  | groups leader hz => exact iff_of_true (hc.setProcess _ fun _ => hz) trivial
  | continues leader reported hz =>
      -- whether a continued process is contained depends on what its burst still has
      refine Iff.trans ?_ (established_of_stopped hs hc hz)
      exact ⟨fun hc' => hc'.runnable rfl, fun hest => ⟨fun _ => hest, hc.waiting⟩⟩
  | changes dir => exact iff_of_true ⟨hc.runnable, hc.waiting⟩ trivial

/-! ## Runs -/

theorem contained_init (dir : Nat) : Contained (init dir) :=
  contained_of_idle rfl fun elapsed => by simp only [init, ne_eq, reduceCtorEq, not_false_eq_true]

/-- For an executor with a limiter and a watchdog, every quantum, and every
    sequence of bursts with whatever the process and its neighbours do: the
    process is contained in every state if and only if no burst takes up a job
    that was launched before, no watchdog is destroyed over a runnable process,
    and no process is continued after its watchdog was destroyed. -/
theorem contained_iff_complies (timeQuantum : Int) (elsewhere : Nat → Bytes × Bytes) (dir : Nat)
    (as : List Action) :
    Lts.Always (step ⟨true, true, timeQuantum, elsewhere⟩) Contained (init dir) as ↔
      Lts.Along (step ⟨true, true, timeQuantum, elsewhere⟩) Complies (init dir) as :=
  Lts.always_iff_along (fun _ _ _ hs hc h => placed_moves rfl rfl hs hc (moves_of_step h))
    (fun _ _ _ hs hc h => contained_moves hs hc (moves_of_step h)) as rfl (contained_init dir)

/-- A burst that launches the job and is preempted after a quantum of one
    millisecond. -/
def preemptedBurst : List Action :=
  [.dequeue, .clone, .applyToPid, .startWatchdog, .sync, .group true, .poll, .poll, .poll,
    .destroyWatchdog, .destroyLimiter]

/-- A job that is preempted once is resumed with nothing in place. -/
theorem resume_uncontained : ¬ ∀ (timeQuantum : Int) (elsewhere : Nat → Bytes × Bytes) (dir : Nat)
    (as : List Action), 0 < timeQuantum →
    Lts.Always (step ⟨true, true, timeQuantum, elsewhere⟩) Contained (init dir) as := by
  intro hall
  have hrun : ∃ t, Lts.run (step ⟨true, true, 1, fun _ => ([], [])⟩) (init 0)
      (preemptedBurst ++ [.dequeue, .resume]) = some t ∧
      t.phase = .waiting 0 ∧ t.watchdog = some .idle := ⟨_, rfl, rfl, rfl⟩
  rcases hrun with ⟨t, hrun, hphase, hidle⟩
  have hcontained := Lts.always_end (hall 1 _ 0 _ Int.one_pos) hrun
  rw [(hcontained.waiting 0 hphase).2, Option.some.injEq] at hidle
  exact absurd hidle (by simp only [reduceCtorEq, not_false_eq_true])

end Lifecycle

end Isolyx
