import Isolyx.Core.Lifecycle
import Isolyx.Library.Progress

/-!
# How Long a Burst Lasts

What `time_quantum` bounds. The worker looks at the process once for every
millisecond, and from the end of the quantum on it sends `SIGSTOP` to the group
of the process every time it looks, until a look finds it stopped or gone. So a
burst takes one look for every millisecond of the quantum, one that stops the
process, and one that finds it stopped (`burst_bounded`).

The process can gain time in two ways only, and each of them one look at a time:
by not being in its own group when the signal is sent, since then the signal
reaches nobody, or by being continued before the worker has seen the stop. A
process that has left its group for good is looked at for as long as it runs,
and its worker takes no other job meanwhile.

## Main definitions

* `Waiting`: The worker is in the wait.
* `left`: How many looks are left, if the process does not evade them.
* `evasion`: A look, or a stop, that the process evades.

## Theorems

* `left_moves`: A look uses up one that was left, unless it is evaded.
* `burst_bounded`: A burst is as long as its quantum and what it evades.
-/

namespace Isolyx

namespace Lifecycle

variable {cfg : Config} {s t : State} {a : Action}

/-- The worker is in the wait. -/
def Waiting (s : State) : Prop := ∃ elapsed, s.phase = .waiting elapsed

instance (s : State) : Decidable (Waiting s) :=
  decidable_of_iff ((match s.phase with | .waiting _ => true | _ => false) = true) (by
    cases hp : s.phase <;> simp [Waiting, hp])

/-- The next look ends the wait. -/
def Process.seen : Process → Bool
  | stopped _ false | zombie _ => true
  | _ => false

/-- How many looks are left before the one that ends the wait, if none of them
    is evaded. -/
def left (cfg : Config) (s : State) : Nat :=
  match s.phase with
  | .waiting elapsed => (cfg.timeQuantum - elapsed).toNat + if s.process.seen then 0 else 1
  | _ => 0

/-- One for a signal that reaches nobody, and for one that is undone. -/
def evasion (cfg : Config) (s : State) : Action → Nat
  | .poll => match s.phase with
      | .waiting elapsed => if cfg.timeQuantum ≤ elapsed ∧ s.process ≠ .running true then 1 else 0
      | _ => 0
  | .continued => 1
  | _ => 0

/-- The process changes, and the worker waits on. -/
theorem left_process {elapsed k : Nat} (hs : s.phase = .waiting elapsed)
    (ht : t.phase = .waiting elapsed)
    (hk : (if t.process.seen then 0 else 1) ≤ (if s.process.seen then 0 else 1) + k) :
    left cfg t ≤ left cfg s + k := by
  simp only [left, hs, ht]
  omega

theorem seen_of_runnable {p : Process} (h : p.runnable = true) : p.seen = false := by
  cases p with
  | running => rfl
  | _ => exact absurd h Bool.false_ne_true

theorem seen_kill {p : Process} (h : p.seen = true) : p.kill.seen = true := by
  cases p with
  | stopped | zombie => rfl
  | _ => exact absurd h Bool.false_ne_true

theorem le_of_seen {p q : Process} (h : p.seen = true → q.seen = true) :
    (if q.seen then 0 else 1) ≤ (if p.seen then 0 else 1) + 0 := by
  cases hp : p.seen with
  | true => simp only [h hp, if_true, Nat.le_refl]
  | false =>
      split
      · exact Nat.zero_le _
      · exact Nat.le_refl _

/-- A look that neither finds the process stopped nor gone. -/
theorem poll_unseen {elapsed : Nat} (hs : s.phase = .waiting elapsed)
    (hseen : s.process.seen = false) (h : step cfg s .poll = some t) :
    (cfg.timeQuantum ≤ elapsed ∧
      t = { s with phase := .waiting elapsed, process := s.process.stopGroup }) ∨
    (elapsed < cfg.timeQuantum ∧ t = { s with phase := .waiting (elapsed + 1) }) := by
  have hmoves : (if cfg.timeQuantum ≤ elapsed then
      some { s with phase := .waiting elapsed, process := s.process.stopGroup }
      else some { s with phase := .waiting (elapsed + 1) }) = some t := by
    simp only [step, hs, Option.ite_none_right_eq_some] at h
    cases hp : s.process with
    | zombie status =>
        rw [hp] at hseen
        exact absurd hseen.symm Bool.false_ne_true
    | stopped leader reported =>
        cases reported with
        | true => simpa only [hp] using h.2
        | false =>
            rw [hp] at hseen
            exact absurd hseen.symm Bool.false_ne_true
    | _ => simpa only [hp] using h.2
  split at hmoves
  · rename_i hexpired
    exact .inl ⟨hexpired, (Option.some.inj hmoves).symm⟩
  · rename_i hearly
    exact .inr ⟨Int.not_le.mp hearly, (Option.some.inj hmoves).symm⟩

/-- A look that finds the process stopped or gone ends the wait. -/
theorem poll_seen (hseen : s.process.seen = true) (h : step cfg s .poll = some t) :
    ¬ Waiting t := by
  rintro ⟨later, ht⟩
  cases moves_of_step h with
  | pollsEnd | pollsStop => simp only [reduceCtorEq] at ht
  | pollsExpired elapsed hp hq | pollsOn elapsed hp hq =>
      simp only [step, hp, hq, if_true] at h
      cases hz : s.process with
      | zombie status =>
          simp only [hz, Option.some.injEq, State.mk.injEq, reduceCtorEq, false_and] at h
      | stopped leader reported =>
          cases reported with
          | false => simp only [hz, Option.some.injEq, State.mk.injEq, reduceCtorEq, false_and] at h
          | true =>
              rw [hz] at hseen
              exact absurd hseen Bool.false_ne_true
      | _ =>
          rw [hz] at hseen
          exact absurd hseen Bool.false_ne_true

/-- A look uses up one that was left, unless it is evaded. -/
theorem left_poll {elapsed : Nat} (hs : s.phase = .waiting elapsed) (ht : Waiting t)
    (h : step cfg s .poll = some t) : 1 + left cfg t ≤ left cfg s + evasion cfg s .poll := by
  have hseen : s.process.seen = false := by
    cases hp : s.process.seen with
    | false => rfl
    | true => exact absurd ht (poll_seen hp h)
  rcases poll_unseen hs hseen h with ⟨hexpired, rfl⟩ | ⟨hearly, rfl⟩
  · by_cases hgroup : s.process = .running true
    -- the signal arrives, and the next look sees it
    · simp only [left, evasion, hs, hgroup, Process.stopGroup, Process.seen, if_true,
        Bool.false_eq_true, if_false]
      omega
    · have hstays : s.process.stopGroup = s.process := by
        cases hp : s.process with
        | running leader =>
            cases leader with
            | true => exact absurd hp hgroup
            | false => rfl
        | _ => rfl
      simp only [left, evasion, hs, hstays, hexpired, hgroup, ne_eq, not_false_eq_true, and_self,
        if_true]
      omega
  · have hnot : ¬ cfg.timeQuantum ≤ elapsed := Int.not_le.mpr hearly
    simp only [left, evasion, hs, hnot, false_and, if_false]
    push_cast
    omega

/-- What a step of anybody does to the looks that are left. -/
theorem left_moves (hq : 0 < cfg.timeQuantum) (hs : Waiting s) (ht : Waiting t)
    (h : step cfg s a = some t) :
    (if a = .poll then 1 else 0) + left cfg t ≤ left cfg s + evasion cfg s a := by
  rcases hs with ⟨elapsed, hs⟩
  by_cases hpoll : a = .poll
  · subst hpoll
    exact left_poll hs ht h
  rw [if_neg hpoll, Nat.zero_add]
  have hle : ∀ k, t.phase = s.phase →
      (if t.process.seen then 0 else 1) ≤ (if s.process.seen then 0 else 1) + k →
      left cfg t ≤ left cfg s + k := fun k hphase hk => left_process hs (hphase.trans hs) hk
  cases moves_of_step h with
  | pollsEnd | pollsStop | pollsExpired | pollsOn => exact absurd rfl hpoll
  | dequeues hp | clones hp | applies hp | starts hp | syncs hp | resumes hp =>
      rw [hp] at hs
      simp only [reduceCtorEq] at hs
  | collects r hp | unwatches r hp | leaves r hp =>
      rw [hp] at hs
      simp only [reduceCtorEq] at hs
  | waits later status hp hz =>
      simp only [step, hp, hq, if_true, reduceCtorEq] at h
  | fires hw hz => exact hle 0 rfl (le_of_seen seen_kill)
  | works w hz => exact hle 0 rfl (le_of_seen id)
  | exits code hz => exact hle 0 rfl (le_of_seen fun _ => rfl)
  | dies sig hz he => exact hle 0 rfl (le_of_seen fun _ => rfl)
  | groups leader hz =>
      refine hle 0 rfl (le_of_seen fun hseen => ?_)
      exact absurd (hseen.symm.trans (seen_of_runnable hz)) Bool.noConfusion
  | continues leader reported hz =>
      refine hle 1 rfl ?_
      simp only [Process.seen, Bool.false_eq_true, if_false]
      omega
  | changes dir => exact hle 0 rfl (le_of_seen id)

/-- From the moment the worker begins to wait, however its steps interleave with
    those of the process, the watchdogs and other processes: as long as it
    waits, it has looked at most once for every millisecond of the quantum, once
    more to stop the process, and once for every look or stop that the process
    evaded; and it can always look again. -/
theorem burst_bounded (cfg : Config) (hq : 0 < cfg.timeQuantum) (s t : State)
    (actions : List Action) (hs : s.phase = .waiting 0)
    (hr : Lts.run (step cfg) s actions = some t) (hwait : Lts.Always (step cfg) Waiting s actions) :
    actions.countP (· = .poll)
        ≤ cfg.timeQuantum.toNat + 1 + Lts.total (step cfg) (evasion cfg) s actions ∧
      (step cfg t .poll).isSome = true := by
  constructor
  · have hle : Lts.total (step cfg) (fun _ a => if a = .poll then 1 else 0) s actions + left cfg t
        ≤ left cfg s + Lts.total (step cfg) (evasion cfg) s actions :=
      Lts.total_add_le (fun _ _ _ hs ht h => left_moves hq hs ht h) hwait hr
    rw [Lts.total_eq_cost hr, Lts.cost_eq_countP] at hle
    have hfirst : left cfg s ≤ cfg.timeQuantum.toNat + 1 := by
      simp only [left, hs]
      split
      · omega
      · omega
    omega
  · rcases Lts.always_end hwait hr with ⟨elapsed, ht⟩
    simp only [step, ht, hq, if_true]
    split
    · rfl
    · rfl
    · split
      · rfl
      · rfl

/-- A quantum of two milliseconds: the third look stops the process, and the
    next one would see it. -/
theorem burst_bounded_two : ∃ (cfg : Config) (s t : State) (actions : List Action),
    cfg.timeQuantum = 2 ∧ actions.countP (· = .poll) = 3 ∧
    Lts.run (step cfg) s actions = some t ∧ t.process = .stopped true false ∧
    actions.countP (· = .poll)
      ≤ cfg.timeQuantum.toNat + 1 + Lts.total (step cfg) (evasion cfg) s actions :=
  ⟨⟨true, true, 2, fun _ => ([], [])⟩,
    { init 0 with phase := .waiting 0, launched := true, process := .running false }, _,
    [.group true, .poll, .poll, .poll], rfl, rfl, rfl, rfl,
    (burst_bounded _ (by decide) _ _ [.group true, .poll, .poll, .poll] rfl rfl (by decide)).1⟩

end Lifecycle

end Isolyx
