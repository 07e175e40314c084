import Isolyx.Library.Run
import Mathlib.Tactic.ByContra

/-!
# How Long a Run Can Be

A measure on the states of a step function, and what a step gains and costs. If
no step gains more than it costs and takes from the measure, then what a run
gains is bounded by what it costs and by the measure at its start
(`total_add_le`).

If each step gains one, that bounds the length of a run (`length_add_le`).
Actions that cost nothing use the measure up: nobody can take them forever, in
whatever order they come, and a run of nothing else ends where none of them is
enabled (`exists_stuck`).

So what a system does by itself, in all interleavings, is known from the states
in which it is stuck.

## Main definitions

* `Stuck`: No action of a set is enabled.
* `total`: What the steps of a run cost together.
* `cost`: The same where the states do not matter.

## Theorems

* `total_add_le`: What a run gains is bounded by what it costs.
* `length_add_le`: The length of a run is bounded by what its actions cost.
* `length_add_le_of_always`: The same for actions that cost nothing.
* `length_add_le_of_worth`: The same where a relation says what a state is worth.
* `exists_stuck`, `exists_stuck_of_worth`: Free actions lead to a state where none is enabled.
-/

namespace Lts

variable {σ α : Type*} {step : σ → α → Option σ}

/-- No action of the set is enabled. -/
def Stuck (step : σ → α → Option σ) (own : α → Prop) (s : σ) : Prop :=
  ∀ a, own a → step s a = none

theorem Stuck.not_step {own : α → Prop} {s t : σ} {a : α} (h : Stuck step own s) (ha : own a)
    (hs : step s a = some t) : False := by
  rw [h a ha] at hs
  simp only [reduceCtorEq] at hs

/-- What the steps of a run cost together, each in the state it is taken in. -/
def total (step : σ → α → Option σ) (c : σ → α → Nat) : σ → List α → Nat
  | _, [] => 0
  | s, a :: as => c s a + match step s a with
    | none => 0
    | some s' => total step c s' as

/-- What the actions of a run cost together, if the states do not matter. -/
def cost (c : α → Nat) : List α → Nat
  | [] => 0
  | a :: as => c a + cost c as

theorem total_cons {c : σ → α → Nat} {s s' : σ} {a : α} {as : List α} (h : step s a = some s') :
    total step c s (a :: as) = c s a + total step c s' as := by
  rw [total, h]

theorem total_eq_cost {c : α → Nat} {s t : σ} {as : List α} (hr : run step s as = some t) :
    total step (fun _ a => c a) s as = cost c as := by
  induction as generalizing s with
  | nil => rfl
  | cons a as ih =>
      rcases run_cons.mp hr with ⟨s', hs', hr'⟩
      rw [total_cons hs', cost, ih hr']

theorem cost_eq_countP (p : α → Prop) [DecidablePred p] (as : List α) :
    cost (fun a => if p a then 1 else 0) as = as.countP fun a => p a := by
  induction as with
  | nil => rfl
  | cons a as ih =>
      rw [cost, ih, List.countP_cons, Nat.add_comm]
      simp only [decide_eq_true_eq]

theorem cost_one (as : List α) : cost (fun _ => 1) as = as.length := by
  induction as with
  | nil => rfl
  | cons a as ih => rw [cost, ih, List.length_cons, Nat.add_comm]

theorem cost_zero (as : List α) : cost (fun _ => 0) as = 0 := by
  induction as with
  | nil => rfl
  | cons a as ih => rw [cost, ih]

/-- If no step gains more than it costs and what it takes from the measure,
    neither does a run. -/
theorem total_add_le {P : σ → Prop} {f : σ → Nat} {gain price : σ → α → Nat}
    (hstep : ∀ s a s', P s → P s' → step s a = some s' → gain s a + f s' ≤ f s + price s a)
    {s t : σ} {as : List α} (hp : Always step P s as) (hr : run step s as = some t) :
    total step gain s as + f t ≤ f s + total step price s as := by
  induction as generalizing s with
  | nil =>
      simp only [run, Option.some.injEq] at hr
      rw [hr, total, total, Nat.zero_add]
      exact Nat.le_refl _
  | cons a as ih =>
      rcases run_cons.mp hr with ⟨s', hs', hr'⟩
      have hone := hstep s a s' hp.1 (always_start (hp.2 s' hs')) hs'
      have hrest := ih (hp.2 s' hs') hr'
      rw [total_cons hs', total_cons hs']
      omega

theorem length_add_le {f : σ → Nat} {c : α → Nat}
    (hstep : ∀ s a s', step s a = some s' → f s' + 1 ≤ f s + c a)
    {s t : σ} {as : List α} (hr : run step s as = some t) :
    as.length + f t ≤ f s + cost c as := by
  have hall : Always step (fun _ => True) s as :=
    always_of_along (fun _ _ _ _ _ _ => trivial) as trivial
      (along_of_forall (G := fun _ _ => True) fun _ _ _ => trivial)
  have hle : total step (fun _ _ => 1) s as + f t ≤ f s + total step (fun _ a => c a) s as :=
    total_add_le (fun s a s' _ _ hs => Nat.add_comm 1 (f s') ▸ hstep s a s' hs) hall hr
  rw [total_eq_cost hr, total_eq_cost hr, cost_one] at hle
  exact hle

/-- Where every step takes from the measure, the measure bounds the length of a run. -/
theorem length_add_le_of_always {P : σ → Prop} {f : σ → Nat}
    (hstep : ∀ s a s', P s → P s' → step s a = some s' → f s' < f s)
    {s t : σ} {as : List α} (hp : Always step P s as) (hr : run step s as = some t) :
    as.length + f t ≤ f s := by
  have hle : total step (fun _ _ => 1) s as + f t ≤ f s + total step (fun _ _ => 0) s as :=
    total_add_le (fun s a s' hs hs' ht => Nat.add_comm 1 (f s') ▸ hstep s a s' hs hs' ht) hp hr
  rw [total_eq_cost hr, total_eq_cost hr, cost_one, cost_zero, Nat.add_zero] at hle
  exact hle

/-- The same where what a state is worth is known up to a relation only. -/
theorem length_add_le_of_worth {R : σ → Nat → Prop} {c : α → Nat}
    (hstep : ∀ s m a s', R s m → step s a = some s' → ∃ m', R s' m' ∧ m' + 1 ≤ m + c a)
    {s t : σ} {m : Nat} {as : List α} (hs : R s m) (hr : run step s as = some t) :
    ∃ m', R t m' ∧ as.length + m' ≤ m + cost c as := by
  induction as generalizing s m with
  | nil =>
      simp only [run, Option.some.injEq] at hr
      exact ⟨m, hr ▸ hs, Nat.le_of_eq (Nat.zero_add m)⟩
  | cons a as ih =>
      rcases run_cons.mp hr with ⟨s', hs', hr'⟩
      rcases hstep s m a s' hs hs' with ⟨m₁, hm₁, hone⟩
      rcases ih hm₁ hr' with ⟨m₂, hm₂, hrest⟩
      refine ⟨m₂, hm₂, ?_⟩
      rw [List.length_cons, cost]
      omega

/-- As long as a free action is enabled it can be taken, and what the state is
    worth runs out. -/
theorem exists_stuck_of_worth {R : σ → Nat → Prop} {own : α → Prop}
    (hstep : ∀ s m a s', R s m → own a → step s a = some s' → ∃ m' < m, R s' m') {s : σ}
    {m : Nat} (hs : R s m) :
    ∃ as t, (∀ a ∈ as, own a) ∧ run step s as = some t ∧ Stuck step own t := by
  induction m using Nat.strongRecOn generalizing s with
  | ind m ih =>
    by_cases hstuck : Stuck step own s
    · exact ⟨[], s, fun a ha => absurd ha List.not_mem_nil, rfl, hstuck⟩
    · have hmove : ∃ a s', own a ∧ step s a = some s' := by
        by_contra hnone
        refine hstuck fun a ha => Option.eq_none_iff_forall_ne_some.mpr fun s' hs' => ?_
        exact hnone ⟨a, s', ha, hs'⟩
      rcases hmove with ⟨a, s', ha, hs'⟩
      rcases hstep s m a s' hs ha hs' with ⟨m', hless, hnext⟩
      rcases ih m' hless hnext with ⟨as, t, hall, hr, ht⟩
      refine ⟨a :: as, t, fun b hb => ?_, run_cons.mpr ⟨s', hs', hr⟩, ht⟩
      rcases List.mem_cons.mp hb with rfl | hb
      · exact ha
      · exact hall b hb

/-- As long as a free action is enabled it can be taken, and the measure runs out. -/
theorem exists_stuck {P : σ → Prop} {f : σ → Nat} {own : α → Prop}
    (hstep : ∀ s a s', P s → own a → step s a = some s' → P s' ∧ f s' < f s) {s : σ} (hs : P s) :
    ∃ as t, (∀ a ∈ as, own a) ∧ run step s as = some t ∧ Stuck step own t := by
  refine exists_stuck_of_worth (R := fun s m => P s ∧ f s = m) (fun s m a s' hs ha hs' => ?_)
    ⟨hs, rfl⟩
  rcases hstep s a s' hs.1 ha hs' with ⟨hnext, hless⟩
  exact ⟨f s', hs.2 ▸ hless, hnext, rfl⟩

end Lts
