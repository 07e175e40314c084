import Isolyx.Core.Watchdogs
import Mathlib.Data.Fin.VecNotation

/-!
# Watchdogs and Recycled Pids

A pid is the child's until the child is reaped, and anybody's afterwards. The
worker reaps first and stops the watchdogs after that, so there is a window in
which a watchdog may still decide to kill and in which the pid may already be
somebody else's.

The two kinds leave it differently. A `TimeoutWatchdog` decides under its
mutex and keeps it, so its window closes with the critical section of its own
`stop` (`held_moves`); an `AnomalyWatchdog` decides with no lock held, so its
window closes only when its thread was joined. Both windows are open at the
reap, and neither `stop` nor `join` looks at what was sent meanwhile.

A signal that was decided on is sent: a thread on its way to `kill` gets there
before it can be joined. This makes the condition exact for a burst that came
to its end (`timely_of_spares`).

## Main definitions

* `Spares`: No watchdog signalled a pid whose process was reaped.
* `Timely`: The child is not reaped under a decision, and none is taken after.
* `Ordered`: How the threads and the worker's progress fit together.

## Theorems

* `ordered_moves`: A watchdog that was stopped is finished or being joined.
* `held_moves`: A `TimeoutWatchdog` that was stopped is past its last `kill`.
* `safe_moves`: Timely steps keep the pid's new owner safe.
* `doomed_moves`: An untimely decision stays one until it is carried out.
* `timely_of_spares`: A finished burst without late signals was timely.
* `timeout_released`: In every state of a run, a stopped timeout is past its
  last `kill`.
* `spares_iff_timely`: The signals of a burst are in time exactly when its
  steps are.
* `timeout_after_reap`: A timer may run out between the reap and `stop`.
-/

namespace Isolyx

namespace Watchdogs

variable {n : Nat} {kinds : Fin n → Kind} {polling : Bool} {s t : State n} {a : Action n}

/-- No watchdog signalled a pid whose process was reaped. -/
def Spares (s : State n) : Prop := ∀ x ∈ s.sent, x.late = false

/-- The child is not reaped while a watchdog is on its way to `kill`, and once
    it is reaped no timeout is found and no sample is suspicious. -/
def Timely (kinds : Fin n → Kind) (s : State n) : Action n → Prop
  | .waitpid | .poll | .reapLater => s.child = .zombie → ∀ i, (s.threads i).aiming = false
  | .expire i => s.child = .reaped → kinds i ≠ .timeout
  | .sample _ suspicious => s.child = .reaped → suspicious = false
  | _ => True

theorem threads_setThread (s : State n) (i j : Fin n) (v : Thread) :
    (setThread s i v).threads j = if j = i then v else s.threads j := by
  simp only [setThread, Function.update_apply]

/-! ## Stopping in order -/

/-- How the threads and the worker's progress fit together. -/
structure Ordered (s : State n) : Prop where
  quiet : ∀ i, s.running i = false →
    (s.threads i).over = true ∨ ∃ destroying, s.phase = .joining destroying i
  stopping : ∀ destroying k, s.phase = .stopping destroying k →
    ∀ i : Fin n, i < k → s.running i = false
  joining : ∀ destroying k, s.phase = .joining destroying k →
    ∀ i : Fin n, i ≤ k → s.running i = false
  done : s.phase = .done → ∀ i, s.running i = false
  launch : ∀ k, s.phase = .starting k → s.child ≠ .reaped

/-- Outside of a join, a watchdog that is not running has a thread that is over. -/
theorem Ordered.over (hs : Ordered s) (hp : ∀ destroying k, s.phase ≠ .joining destroying k)
    {i : Fin n} (hr : s.running i = false) : (s.threads i).over = true := by
  rcases hs.quiet i hr with h | ⟨destroying, h⟩
  · exact h
  · exact absurd h (hp destroying i)

/-- A thread that is not over moves on. -/
theorem Ordered.setThread (hs : Ordered s) {i : Fin n} (hi : (s.threads i).over = false)
    (v : Thread) : Ordered (setThread s i v) where
  quiet j hr := by
    by_cases hj : j = i
    -- it was not over, so if it was stopped it is being joined
    · rcases hs.quiet j hr with h | h
      · rw [hj, hi] at h
        exact absurd h Bool.false_ne_true
      · exact Or.inr h
    · rw [threads_setThread, if_neg hj]
      exact hs.quiet j hr
  stopping := hs.stopping
  joining := hs.joining
  done := hs.done
  launch := hs.launch

/-- The worker moves on to a phase that stops nothing. -/
theorem Ordered.pass (hs : Ordered s) (hj : ∀ destroying k, s.phase ≠ .joining destroying k)
    {p : Phase} (c : Child) (hstopping : ∀ destroying k, p = .stopping destroying k → k = 0)
    (hother : ∀ k, p ≠ .starting k ∧ ∀ destroying, p ≠ .joining destroying k)
    (hdone : p ≠ .done) : Ordered { s with phase := p, child := c } where
  quiet _ hr := Or.inl (hs.over hj hr)
  stopping destroying k h _ hi := absurd (hstopping destroying k h ▸ hi) (Nat.not_lt_zero _)
  joining destroying k h := absurd h ((hother k).2 destroying)
  done h := absurd h hdone
  launch k h := absurd h (hother k).1

theorem ordered_moves (hs : Ordered s) (h : Moves kinds s a t) : Ordered t := by
  cases h with
  | starts i hp =>
      have hj : ∀ destroying k, s.phase ≠ .joining destroying k := by simp [hp]
      refine ⟨fun j hr => Or.inl ?_, by simp, by simp, by simp, fun _ _ => hs.launch i hp⟩
      by_cases hji : j = i
      · simp [hji] at hr
      · simp only [Function.update_of_ne hji] at hr
        have hover := hs.over hj hr
        rw [← hover]
        simp only [setThread, Function.update_of_ne hji]
  | started k hp => exact hs.pass (by simp [hp]) s.child (by simp) (by simp) (by simp)
  | waits hp hc => exact hs.pass (by simp [hp]) .reaped (by simp) (by simp) (by simp)
  | pollsEnd hp hc => exact hs.pass (by simp [hp]) .reaped (by simp) (by simp) (by simp)
  | pollsStop hp hc => exact hs.pass (by simp [hp]) s.child (by simp) (by simp) (by simp)
  | pollsOn hp hc => exact hs
  | clears destroying i hp hl hr =>
      have hj : ∀ destroying k, s.phase ≠ .joining destroying k := by simp [hp]
      refine ⟨fun j hr => ?_, by simp, fun d k h j hjk => ?_, by simp, by simp⟩
      · by_cases hji : j = i
        · exact Or.inr ⟨destroying, by rw [hji]⟩
        · simp only [Function.update_of_ne hji] at hr
          exact Or.inl (hs.over hj hr)
      · have hk : (i : Nat) = k := (Phase.joining.inj h).2
        by_cases hji : j = i
        · simp only [hji, Function.update_self]
        · simp only [Function.update_of_ne hji]
          exact hs.stopping destroying i hp j (by omega)
  | skips destroying i hp hr =>
      have hj : ∀ destroying k, s.phase ≠ .joining destroying k := by simp [hp]
      refine ⟨fun j hr => Or.inl (hs.over hj hr), fun d k h j hjk => ?_, by simp, by simp,
        by simp⟩
      have hk : (i : Nat) + 1 = k := (Phase.stopping.inj h).2
      rcases Nat.lt_succ_iff_lt_or_eq.mp (hk ▸ hjk) with hlt | heq
      · exact hs.stopping destroying i hp j hlt
      · rw [Fin.ext heq]
        exact hr
  | stopped destroying k hp hk =>
      have hj : ∀ destroying k, s.phase ≠ .joining destroying k := by simp [hp]
      have hall : ∀ i, s.running i = false := fun i =>
        hs.stopping destroying k hp i (Nat.lt_of_lt_of_le i.isLt hk)
      exact ⟨fun j hr => Or.inl (hs.over hj hr), fun d k h i _ => hall i,
        fun d k h i _ => hall i, fun _ => hall, by cases destroying <;> simp⟩
  | joins destroying i hp ht =>
      refine ⟨fun j hr => Or.inl ?_, fun d k h j hjk => ?_, by simp, by simp, by simp⟩
      -- the one thread that was being joined is finished now
      · rcases hs.quiet j hr with hover | ⟨d, hjoin⟩
        · exact hover
        · have hji : (i : Nat) = j := (Phase.joining.inj (hp.symm.trans hjoin)).2
          rw [← Fin.ext hji, ht]
          rfl
      · have hk : (i : Nat) + 1 = k := (Phase.stopping.inj h).2
        exact hs.joining destroying i hp j (by omega)
  | reapsLater hp hc => exact ⟨hs.quiet, hs.stopping, hs.joining, hs.done, by simp [hp]⟩
  | leaves i ht hr => exact hs.setThread (by rw [ht]; rfl) _
  | timesOut i ht hr hk => exact hs.setThread (by rw [ht]; rfl) _
  | turns i ht hr hk => exact hs.setThread (by rw [ht]; rfl) _
  | suspects i ht => exact hs.setThread (by rw [ht]; rfl) _
  | acquits i ht => exact hs.setThread (by rw [ht]; rfl) _
  | killsGroup i ht =>
      have h := hs.setThread (i := i) (by rw [ht]; rfl) .firedGroup
      exact ⟨h.quiet, h.stopping, h.joining, h.done, h.launch⟩
  | killsPid i ht =>
      have h := hs.setThread (i := i) (by rw [ht]; rfl) .finished
      exact ⟨h.quiet, h.stopping, h.joining, h.done, h.launch⟩
  | childEnds hc => exact ⟨hs.quiet, hs.stopping, hs.joining, hs.done, by simp⟩
  | childStops hc hp => exact ⟨hs.quiet, hs.stopping, hs.joining, hs.done, by simp⟩
  | childContinues hc => exact ⟨hs.quiet, hs.stopping, hs.joining, hs.done, by simp⟩

/-! ## The mutex -/

/-- What the mutex of a `TimeoutWatchdog` is good for. -/
structure Held (kinds : Fin n → Kind) (s : State n) : Prop where
  /-- Once its `running_` is cleared, it is past its last `kill`. -/
  released : ∀ i, kinds i = .timeout → s.running i = false → (s.threads i).aiming = false
  /-- It does not sample. -/
  sampling : ∀ i, s.threads i = .sampling → kinds i = .anomaly

/-- A thread moves on and aims at nothing, or it ran, or it has no lock to keep. -/
theorem Held.setThread (hs : Held kinds s) {i : Fin n} {v : Thread}
    (hv : v.aiming = false ∨ s.running i = true ∨ kinds i = .anomaly ∨
      (s.threads i).aiming = true) (hsampling : v = .sampling → kinds i = .anomaly) :
    Held kinds (setThread s i v) where
  released j hk hr := by
    rw [threads_setThread]
    split
    · rename_i hji
      subst hji
      rcases hv with hv | hv | hv | hv
      · exact hv
      · exact absurd (hv.symm.trans hr) (by simp)
      · exact absurd (hv.symm.trans hk) (by simp)
      · exact absurd (hv.symm.trans (hs.released j hk hr)) (by simp)
    · exact hs.released j hk hr
  sampling j hj := by
    rw [threads_setThread] at hj
    split at hj
    · rename_i hji
      exact hji ▸ hsampling hj
    · exact hs.sampling j hj

theorem held_moves (hs : Held kinds s) (h : Moves kinds s a t) : Held kinds t := by
  cases h with
  | starts i hp =>
      have hset : Held kinds (Watchdogs.setThread s i .waiting) :=
        hs.setThread (Or.inl rfl) (by simp)
      refine ⟨fun j hk hr => ?_, hset.sampling⟩
      by_cases hji : j = i
      · simp [hji] at hr
      · simp only [Function.update_of_ne hji] at hr
        exact hset.released j hk hr
  | clears destroying i hp hl hr =>
      refine ⟨fun j hk hrunning => ?_, hs.sampling⟩
      by_cases hji : j = i
      -- `stop` had the mutex, so the thread did not
      · simp only [locked, ← hji, hk, decide_true, Bool.true_and] at hl
        exact hl
      · simp only [Function.update_of_ne hji] at hrunning
        exact hs.released j hk hrunning
  | leaves i ht hr => exact hs.setThread (Or.inl rfl) (by simp)
  | timesOut i ht hr hk => exact hs.setThread (Or.inr (Or.inl hr)) (by simp)
  | turns i ht hr hk => exact hs.setThread (Or.inl rfl) fun _ => hk
  | suspects i ht => exact hs.setThread (Or.inr (Or.inr (Or.inl (hs.sampling i ht)))) (by simp)
  | acquits i ht => exact hs.setThread (Or.inl rfl) (by simp)
  | killsGroup i ht =>
      have h := hs.setThread (i := i) (v := .firedGroup)
        (Or.inr (Or.inr (Or.inr (by rw [ht]; rfl)))) (by simp)
      exact ⟨h.released, h.sampling⟩
  | killsPid i ht =>
      have h := hs.setThread (i := i) (v := .finished) (Or.inl rfl) (by simp)
      exact ⟨h.released, h.sampling⟩
  | _ => exact ⟨hs.released, hs.sampling⟩

/-! ## The reap -/

/-- No signal was late, and none is about to be. -/
structure Safe (s : State n) : Prop where
  spares : Spares s
  calm : s.child = .reaped → ∀ i, (s.threads i).aiming = false

/-- A signal was late or is about to be. -/
def Doomed (s : State n) : Prop :=
  (∃ x ∈ s.sent, x.late = true) ∨ s.child = .reaped ∧ ∃ i, (s.threads i).aiming = true

/-- A thread moves on; once the child is reaped, not to a call of `kill`. -/
theorem Safe.setThread (hs : Safe s) {i : Fin n} {v : Thread}
    (hv : s.child = .reaped → v.aiming = false) : Safe (setThread s i v) where
  spares := hs.spares
  calm hc j := by
    rw [threads_setThread]
    split
    · exact hv hc
    · exact hs.calm hc j

/-- A watchdog that was on its way calls `kill`, so the child is not reaped. -/
theorem Safe.signal (hs : Safe s) {i : Fin n} {group : Bool} {v : Thread}
    (hi : (s.threads i).aiming = true) : Safe (signal (Watchdogs.setThread s i v) i group) := by
  have hc : s.child ≠ .reaped := fun hc => by
    rw [hs.calm hc i] at hi
    exact Bool.false_ne_true hi
  refine ⟨fun x hx => ?_, fun h => absurd h hc⟩
  rcases List.mem_append.mp hx with hx | hx
  · exact hs.spares x hx
  · rw [List.mem_singleton.mp hx]
    exact decide_eq_false hc

theorem safe_moves (hs : Safe s) (h : Moves kinds s a t) (hg : Timely kinds s a) : Safe t := by
  cases h with
  | starts i hp =>
      have h := hs.setThread (i := i) (v := .waiting) fun _ => rfl
      exact ⟨h.spares, h.calm⟩
  -- the reap, by whichever wait: nobody is on the way
  | waits hp hc => exact ⟨hs.spares, fun _ => hg hc⟩
  | pollsEnd hp hc => exact ⟨hs.spares, fun _ => hg hc⟩
  | reapsLater hp hc => exact ⟨hs.spares, fun _ => hg hc⟩
  | leaves i ht hr => exact hs.setThread fun _ => rfl
  | timesOut i ht hr hk => exact hs.setThread fun hc => absurd hk (hg hc)
  | turns i ht hr hk => exact hs.setThread fun _ => rfl
  | suspects i ht => exact hs.setThread fun hc => absurd (hg hc) (by simp)
  | acquits i ht => exact hs.setThread fun _ => rfl
  | killsGroup i ht => exact hs.signal (by rw [ht]; rfl)
  | killsPid i ht => exact hs.signal (by rw [ht]; rfl)
  | childEnds hc => exact ⟨hs.spares, fun h => absurd h (by simp)⟩
  | childStops hc hp => exact ⟨hs.spares, fun h => absurd h (by simp)⟩
  | childContinues hc => exact ⟨hs.spares, fun h => absurd h (by simp)⟩
  | _ => exact ⟨hs.spares, hs.calm⟩

theorem doomed_of_untimely (h : Moves kinds s a t) (hg : ¬ Timely kinds s a) : Doomed t := by
  -- at the reap, the thread on its way is still on its way after it
  have hreap : ¬ (s.child = .zombie → ∀ i, (s.threads i).aiming = false) →
      ∃ i, (s.threads i).aiming = true := by
    intro hn
    simp only [Classical.not_imp, not_forall, Bool.not_eq_false] at hn
    exact hn.2
  cases h with
  | waits hp hc => exact Or.inr ⟨rfl, hreap hg⟩
  | pollsEnd hp hc => exact Or.inr ⟨rfl, hreap hg⟩
  | pollsStop hp hc => exact absurd (fun h => absurd (hc.symm.trans h) (by simp)) hg
  | pollsOn hp hc => exact absurd (fun h => absurd h hc) hg
  | reapsLater hp hc => exact Or.inr ⟨rfl, hreap hg⟩
  | timesOut i ht hr hk =>
      simp only [Timely, hk, ne_eq, not_true_eq_false, imp_false, not_not] at hg
      exact Or.inr ⟨hg, i, by rw [threads_setThread, if_pos rfl]; rfl⟩
  | turns i ht hr hk => exact absurd (fun _ => by simp [hk]) hg
  | suspects i ht =>
      simp only [Timely, Bool.true_eq_false, imp_false, not_not] at hg
      exact Or.inr ⟨hg, i, by rw [threads_setThread, if_pos rfl]; rfl⟩
  | acquits i ht => exact absurd (fun _ => rfl) hg
  | _ => exact absurd trivial hg

/-- A thread that is on its way to `kill` is so until it has called it. -/
theorem doomed_moves (ho : Ordered s) (hs : Doomed s) (h : Moves kinds s a t) : Doomed t := by
  -- a thread that is not on its way moves on
  have hkeep : ∀ {i : Fin n} {v : Thread}, (s.threads i).aiming = false →
      Doomed (setThread s i v) := by
    intro i v hi
    rcases hs with hlate | ⟨hc, j, hj⟩
    · exact Or.inl hlate
    · refine Or.inr ⟨hc, j, ?_⟩
      rw [threads_setThread, if_neg]
      · exact hj
      · rintro rfl
        exact absurd (hi.symm.trans hj) (by simp)
  -- a call of `kill` once the child is reaped is late, whoever calls
  have hcall : ∀ {i : Fin n} {v : Thread} {group : Bool},
      Doomed (signal (setThread s i v) i group) := by
    intro i v group
    rcases hs with ⟨x, hx, hlate⟩ | ⟨hc, _⟩
    · exact Or.inl ⟨x, List.mem_append_left _ hx, hlate⟩
    · exact Or.inl ⟨_, List.mem_append_right _ (List.mem_singleton.mpr rfl), decide_eq_true hc⟩
  have hchild : s.child ≠ .reaped → ∀ {c : Child}, Doomed { s with child := c } := by
    intro hne c
    rcases hs with hlate | ⟨hc, _⟩
    · exact Or.inl hlate
    · exact absurd hc hne
  cases h with
  | starts i hp =>
      -- the launch is not over, so the child is not reaped
      rcases hs with hlate | ⟨hc, _⟩
      · exact Or.inl hlate
      · exact absurd hc (ho.launch i hp)
  | waits hp hc => exact hs.imp_right fun h => ⟨rfl, h.2⟩
  | pollsEnd hp hc => exact hs.imp_right fun h => ⟨rfl, h.2⟩
  | reapsLater hp hc => exact hs.imp_right fun h => ⟨rfl, h.2⟩
  | leaves i ht hr => exact hkeep (by rw [ht]; rfl)
  | timesOut i ht hr hk => exact hkeep (by rw [ht]; rfl)
  | turns i ht hr hk => exact hkeep (by rw [ht]; rfl)
  | suspects i ht => exact hkeep (by rw [ht]; rfl)
  | acquits i ht => exact hkeep (by rw [ht]; rfl)
  | killsGroup i ht => exact hcall
  | killsPid i ht => exact hcall
  | childEnds hc => exact hchild (by rcases hc with hc | hc <;> simp [hc])
  | childStops hc hp => exact hchild (by simp [hc])
  | childContinues hc => exact hchild (by simp [hc])
  | _ => exact hs

/-! ## The burst -/

theorem ordered_init (launched : Bool) : Ordered (init n launched) := by
  cases launched with
  | true => exact ⟨fun _ _ => Or.inl rfl, by simp [init], by simp [init], by simp [init],
      by simp [init]⟩
  | false => exact ⟨fun _ _ => Or.inl rfl, by simp [init], by simp [init], by simp [init],
      by simp [init]⟩

theorem safe_init (launched : Bool) : Safe (init n launched) :=
  ⟨fun _ hx => absurd hx List.not_mem_nil, fun hc => absurd hc (by simp [init])⟩

theorem held_init (kinds : Fin n → Kind) (launched : Bool) : Held kinds (init n launched) :=
  ⟨fun _ _ _ => rfl, fun _ h => absurd h (by simp [init])⟩

/-- When the watchdogs are destroyed, no thread is on its way to `kill`. -/
theorem aiming_of_done (hs : Ordered s) (hdone : s.phase = .done) (i : Fin n) :
    (s.threads i).aiming = false := by
  have hover := hs.over (by simp [hdone]) (hs.done hdone i)
  cases ht : s.threads i <;> simp [ht, Thread.over] at hover <;> rfl

/-- If no signal of a finished burst was late, all its steps were timely. -/
theorem timely_of_spares {actions : List (Action n)} {launched : Bool}
    (h : Lts.run (step kinds polling) (init n launched) actions = some s)
    (hdone : s.phase = .done) (hspares : Spares s) :
    Lts.Along (step kinds polling) (Timely kinds) (init n launched) actions := by
  have hordered : Ordered s := Lts.run_invariant
    (fun _ _ _ hs hstep => ordered_moves hs (moves_of_step hstep)) (ordered_init launched) h
  refine Lts.along_of_not_end (fun _ _ _ hs hstep => ordered_moves hs (moves_of_step hstep))
    (fun _ _ _ _ hstep hg => doomed_of_untimely (moves_of_step hstep) hg)
    (fun _ _ _ ho hq hstep => doomed_moves ho hq (moves_of_step hstep)) (ordered_init launched) h ?_
  -- What was on its way has arrived, and nothing that arrived was late.
  rintro (⟨x, hx, hlate⟩ | ⟨_, i, hi⟩)
  · rw [hspares x hx] at hlate
    exact Bool.false_ne_true hlate
  · rw [aiming_of_done hordered hdone i] at hi
    exact Bool.false_ne_true hi

/-- In every reachable state, a `TimeoutWatchdog` whose `running_` is cleared
    is past its last `kill`. -/
theorem timeout_released {actions : List (Action n)} {launched : Bool}
    (h : Lts.run (step kinds polling) (init n launched) actions = some s) (i : Fin n)
    (hk : kinds i = .timeout) (hr : s.running i = false) : (s.threads i).aiming = false :=
  (Lts.run_invariant (fun _ _ _ hs hstep => held_moves hs (moves_of_step hstep))
    (held_init kinds launched) h).released i hk hr

/-- For any number of watchdogs of either kind, either wait and every
    interleaving: a run whose steps are timely sends no signal to a reaped pid,
    and a burst that came to its end without such a signal had only timely
    steps. -/
theorem spares_iff_timely (n : Nat) (kinds : Fin n → Kind) (polling launched : Bool)
    (actions : List (Action n)) (s : State n)
    (h : Lts.run (step kinds polling) (init n launched) actions = some s) :
    (Lts.Along (step kinds polling) (Timely kinds) (init n launched) actions →
      Lts.Always (step kinds polling) Spares (init n launched) actions) ∧
    (s.phase = .done → (Spares s ↔
      Lts.Along (step kinds polling) (Timely kinds) (init n launched) actions)) := by
  have hsafe : Lts.Along (step kinds polling) (Timely kinds) (init n launched) actions →
      Lts.Always (step kinds polling) Spares (init n launched) actions := fun hg =>
    Lts.Always.imp (fun _ hs => hs.spares) (Lts.always_of_along
      (fun _ _ _ hs hb hstep => safe_moves hs (moves_of_step hstep) hb) actions
      (safe_init launched) hg)
  exact ⟨hsafe, fun hdone => ⟨timely_of_spares h hdone,
    fun hg => Lts.always_end (hsafe hg) h⟩⟩

/-- A child that ends in time, with the two watchdogs the engine makes. -/
theorem spares_timely_end :
    ∃ s : State 2, s.phase = .done ∧ s.child = .reaped ∧ (Spares s ↔
      Lts.Along (step ![.timeout, .anomaly] false) (Timely ![.timeout, .anomaly]) (init 2 true)
        [.start, .start, .start, .expire 1, .sample 1 false, .childEnds, .waitpid, .stop, .leave 0,
          .join, .stop, .leave 1, .join, .stop, .stop, .stop, .stop]) :=
  ⟨_, rfl, rfl, (spares_iff_timely 2 ![.timeout, .anomaly] false true _ _ rfl).2 rfl⟩

/-- The child ends, the worker reaps it, and the timer runs out before `stop`
    takes the mutex. -/
theorem timeout_after_reap : ¬ ∀ (n : Nat) (kinds : Fin n → Kind) (polling launched : Bool)
    (actions : List (Action n)) (s : State n),
    Lts.run (step kinds polling) (init n launched) actions = some s → Spares s := by
  intro h
  have hs := h 1 ![.timeout] false true
    [.start, .start, .childEnds, .waitpid, .expire 0, .killGroup 0] _ rfl
  exact absurd (hs ⟨0, true, true⟩ (by decide)) (by decide)

end Watchdogs

end Isolyx
