import Mathlib.Logic.Basic

/-!
# Runs of Labelled Step Functions

A system is a partial function `step : σ → α → Option σ`: in a state, an
action either is not enabled or leads to one successor. Every choice the
environment makes, down to which thread moves next, is an action, so one list
of actions is one interleaving and quantifying over lists quantifies over all
of them.

Two predicates describe a whole run. `Always` says that a property of states
holds at every state passed through, `Along` that a condition on the pair of
state and action holds at every step taken. `always_iff_along` connects them:
when a condition on single steps is exactly what preserves a property, a run
keeps the property throughout if and only if all its steps meet the condition.

## Main definitions

* `run`: Taking a list of actions in order.
* `Always`: Every state of a run has a property.
* `Along`: Every step of a run meets a condition.
* `trace`: What the steps of a run show.

## Theorems

* `along_of_along`: A condition on the steps gives another one.
* `along_congr`: Two conditions that agree on the steps agree on the run.
* `run_append`: A run over an appended list passes through a middle state.
* `along_of_trace_nil`: A run that shows nothing shows nothing at any step.
* `end_of_along`: What steps that meet a condition preserve, holds at the end.
* `always_append`: A property that always holds, holds along the second part.
* `trace_append`: A run shows what its two parts show.
* `run_invariant`: A property preserved by every step holds at the end.
* `trace_invariant`: So does one of the state and of what was shown so far.
* `always_of_along`: Steps that meet the condition keep the property.
* `always_start`: A property that always holds, holds at the start.
* `always_end`: A property that always holds, holds at the end.
* `along_of_always`: A kept property tells what the steps were.
* `always_iff_along`: A property is kept exactly when every step complies.
* `along_of_not_end`: A run that ends well violated nothing that cannot be undone.
-/

namespace Lts

section

variable {σ α : Type*} (step : σ → α → Option σ)

/-- Take the actions in order, or `none` at the first one not enabled. -/
def run : σ → List α → Option σ
  | s, [] => some s
  | s, a :: as => match step s a with
    | none => none
    | some s' => run s' as

/-- Every state of the run has the property, the first one included. -/
def Always (P : σ → Prop) : σ → List α → Prop
  | s, [] => P s
  | s, a :: as => P s ∧ ∀ s', step s a = some s' → Always P s' as

/-- Every step the run takes meets the condition, read on the state the step
    is taken in. -/
def Along (G : σ → α → Prop) : σ → List α → Prop
  | _, [] => True
  | s, a :: as => ∀ s', step s a = some s' → G s a ∧ Along G s' as

/-- What the steps of the run show, in their order. -/
def trace {β : Type*} (shows : σ → α → Option β) : σ → List α → List β
  | _, [] => []
  | s, a :: as => match step s a with
    | none => []
    | some s' => (shows s a).toList ++ trace shows s' as

variable {step}

theorem run_cons {s t : σ} {a : α} {as : List α} :
    run step s (a :: as) = some t ↔ ∃ s', step s a = some s' ∧ run step s' as = some t := by
  cases h : step s a with
  | none => simp only [run, h, reduceCtorEq, false_and, exists_false]
  | some s' => simp only [run, h, Option.some.injEq, exists_eq_left']

theorem run_append {s t : σ} {as bs : List α} :
    run step s (as ++ bs) = some t ↔ ∃ m, run step s as = some m ∧ run step m bs = some t := by
  induction as generalizing s with
  | nil => simp only [List.nil_append, run, Option.some.injEq, exists_eq_left']
  | cons a as ih =>
      simp only [List.cons_append, run_cons, ih]
      constructor
      · rintro ⟨s', hs, m, hm, ht⟩
        exact ⟨m, ⟨s', hs, hm⟩, ht⟩
      · rintro ⟨m, ⟨s', hs, hm⟩, ht⟩
        exact ⟨s', hs, m, hm, ht⟩

theorem trace_cons {β : Type*} {shows : σ → α → Option β} {s s' : σ} {a : α} {as : List α}
    (h : step s a = some s') :
    trace step shows s (a :: as) = (shows s a).toList ++ trace step shows s' as := by
  simp only [trace, h]

theorem trace_append {β : Type*} {shows : σ → α → Option β} {s m : σ} {as : List α}
    (h : run step s as = some m) (bs : List α) :
    trace step shows s (as ++ bs) = trace step shows s as ++ trace step shows m bs := by
  induction as generalizing s with
  | nil =>
      simp only [run, Option.some.injEq] at h
      rw [h, List.nil_append, trace, List.nil_append]
  | cons a as ih =>
      rcases run_cons.mp h with ⟨s', hs', hr⟩
      rw [List.cons_append, trace_cons hs', trace_cons hs', ih hr, List.append_assoc]

/-- A run that shows nothing takes steps that show nothing. -/
theorem along_of_trace_nil {β : Type*} {shows : σ → α → Option β} {s : σ} {as : List α}
    (h : trace step shows s as = []) : Along step (fun s a => shows s a = none) s as := by
  induction as generalizing s with
  | nil => trivial
  | cons a as ih =>
      intro s' hs'
      rw [trace_cons hs', List.append_eq_nil_iff, Option.toList_eq_nil_iff] at h
      exact ⟨h.1, ih h.2⟩

/-- Along a run whose steps meet a condition, a property is preserved to the end. -/
theorem end_of_along {P : σ → Prop} {G : σ → α → Prop}
    (hstep : ∀ s a s', P s → G s a → step s a = some s' → P s')
    {s t : σ} {as : List α} (hs : P s) (hg : Along step G s as) (hr : run step s as = some t) :
    P t := by
  induction as generalizing s with
  | nil =>
      simp only [run, Option.some.injEq] at hr
      exact hr ▸ hs
  | cons a as ih =>
      rcases run_cons.mp hr with ⟨s', hs', hr'⟩
      exact ih (hstep s a s' hs (hg s' hs').1 hs') (hg s' hs').2 hr'

theorem always_append {P : σ → Prop} {s m : σ} {as bs : List α} (hr : run step s as = some m)
    (h : Always step P s (as ++ bs)) : Always step P m bs := by
  induction as generalizing s with
  | nil =>
      simp only [run, Option.some.injEq] at hr
      exact hr ▸ h
  | cons a as ih =>
      rcases run_cons.mp hr with ⟨s', hs', hr'⟩
      exact ih hr' (h.2 s' hs')

/-- A run meets a condition that its actions meet in every state. -/
theorem along_of_forall {G : σ → α → Prop} {s : σ} {as : List α}
    (h : ∀ a ∈ as, ∀ s, G s a) : Along step G s as := by
  induction as generalizing s with
  | nil => trivial
  | cons a as ih =>
      exact fun s' _ => ⟨h a List.mem_cons_self s, ih fun b hb => h b (List.mem_cons_of_mem a hb)⟩

theorem Along.and {G H : σ → α → Prop} {s : σ} {as : List α} (hg : Along step G s as)
    (hh : Along step H s as) : Along step (fun s a => G s a ∧ H s a) s as := by
  induction as generalizing s with
  | nil => trivial
  | cons a as ih =>
      exact fun s' hs' => ⟨⟨(hg s' hs').1, (hh s' hs').1⟩, ih (hg s' hs').2 (hh s' hs').2⟩

/-- What a run says of a step is said of that step wherever the run takes it. -/
theorem along_at {G : σ → α → Prop} {s m t : σ} {a : α} {as : List α}
    (h : Along step G s (as ++ [a])) (hr : run step s as = some m) (ht : step m a = some t) :
    G m a := by
  induction as generalizing s with
  | nil =>
      simp only [run, Option.some.injEq] at hr
      exact hr ▸ (h t (hr ▸ ht)).1
  | cons b as ih =>
      rcases run_cons.mp hr with ⟨s', hs', hr'⟩
      exact ih (h s' hs').2 hr'

/-- A condition on single steps gives another one, by what the first preserves. -/
theorem along_of_along {I : σ → Prop} {G H : σ → α → Prop}
    (hinv : ∀ s a s', I s → G s a → step s a = some s' → I s')
    (hstep : ∀ s a s', I s → G s a → step s a = some s' → H s a)
    {s : σ} {as : List α} (hi : I s) (h : Along step G s as) : Along step H s as := by
  induction as generalizing s with
  | nil => trivial
  | cons a as ih =>
      intro s' hs'
      have hg := (h s' hs').1
      exact ⟨hstep s a s' hi hg hs', ih (hinv s a s' hi hg hs') (h s' hs').2⟩

/-- Two conditions that agree on the steps of a run agree on the run. -/
theorem along_congr {I : σ → Prop} {G H K : σ → α → Prop}
    (hinv : ∀ s a s', I s → step s a = some s' → I s')
    (hiff : ∀ s a, I s → G s a → (H s a ↔ K s a))
    {s : σ} {as : List α} (hi : I s) (h : Along step G s as) :
    Along step H s as ↔ Along step K s as := by
  induction as generalizing s with
  | nil => exact Iff.rfl
  | cons a as ih =>
      refine forall₂_congr fun s' hs' => ?_
      have hg := h s' hs'
      exact and_congr (hiff s a hi hg.1) (ih (hinv s a s' hi hs') hg.2)

/-- A property that every step preserves holds wherever a run ends. -/
theorem run_invariant {P : σ → Prop} (hstep : ∀ s a s', P s → step s a = some s' → P s')
    {s t : σ} {as : List α} (hs : P s) (hr : run step s as = some t) : P t := by
  induction as generalizing s with
  | nil =>
      simp only [run, Option.some.injEq] at hr
      exact hr ▸ hs
  | cons a as ih =>
      rcases run_cons.mp hr with ⟨s', hs', hr'⟩
      exact ih (hstep s a s' hs hs') hr'

/-- What every step preserves of a state and of what was shown so far. -/
theorem trace_invariant {β : Type*} {shows : σ → α → Option β} {P : List β → σ → Prop}
    (hstep : ∀ es s a s', P es s → step s a = some s' → P (es ++ (shows s a).toList) s')
    {s t : σ} {as : List α} {es : List β} (hs : P es s) (hr : run step s as = some t) :
    P (es ++ trace step shows s as) t := by
  induction as generalizing s es with
  | nil =>
      simp only [run, Option.some.injEq] at hr
      rw [trace, List.append_nil]
      exact hr ▸ hs
  | cons a as ih =>
      rcases run_cons.mp hr with ⟨s', hs', hr'⟩
      rw [trace_cons hs', ← List.append_assoc]
      exact ih (hstep es s a s' hs hs') hr'

/-- A property that every step preserves, if it meets a condition, is kept by a
    run all of whose steps meet it. -/
theorem always_of_along {P : σ → Prop} {G : σ → α → Prop}
    (hstep : ∀ s a s', P s → G s a → step s a = some s' → P s')
    {s : σ} (as : List α) (hs : P s) (hg : Along step G s as) : Always step P s as := by
  induction as generalizing s with
  | nil => exact hs
  | cons a as ih =>
      exact ⟨hs, fun s' hs' => ih (hstep s a s' hs (hg s' hs').1 hs') (hg s' hs').2⟩

/-- On a given run, a property of states that can be decided can be followed
    through the run. -/
instance decidableAlways {P : σ → Prop} [DecidablePred P] :
    ∀ (s : σ) (as : List α), Decidable (Always step P s as)
  | s, [] => inferInstanceAs (Decidable (P s))
  | s, a :: as => match h : step s a with
    | none => decidable_of_iff (P s) ⟨fun hs => ⟨hs, fun s' hs' => by simp only [h, reduceCtorEq]
        at hs'⟩, fun hs => hs.1⟩
    | some s' => haveI := decidableAlways (P := P) s' as
      decidable_of_iff (P s ∧ Always step P s' as)
        ⟨fun hs => ⟨hs.1, fun u hu => Option.some.inj (h.symm.trans hu) ▸ hs.2⟩,
          fun hs => ⟨hs.1, hs.2 s' h⟩⟩

/-- So can a condition on its steps. -/
instance decidableAlong {G : σ → α → Prop} [∀ s a, Decidable (G s a)] :
    ∀ (s : σ) (as : List α), Decidable (Along step G s as)
  | _, [] => isTrue trivial
  | s, a :: as => match h : step s a with
    | none => isTrue fun s' hs' => by simp only [h, reduceCtorEq] at hs'
    | some s' => haveI := decidableAlong (G := G) s' as
      decidable_of_iff (G s a ∧ Along step G s' as)
        ⟨fun hs u hu => Option.some.inj (h.symm.trans hu) ▸ hs, fun hs => hs s' h⟩

theorem Always.imp {P Q : σ → Prop} (himp : ∀ s, P s → Q s) {s : σ} {as : List α}
    (h : Always step P s as) : Always step Q s as := by
  induction as generalizing s with
  | nil => exact himp s h
  | cons a as ih => exact ⟨himp s h.1, fun s' hs' => ih (h.2 s' hs')⟩

theorem always_start {P : σ → Prop} {s : σ} {as : List α} (h : Always step P s as) : P s := by
  cases as with
  | nil => exact h
  | cons a as => exact h.1

theorem always_end {P : σ → Prop} {s t : σ} {as : List α} (h : Always step P s as)
    (hr : run step s as = some t) : P t := by
  induction as generalizing s with
  | nil =>
      simp only [run, Option.some.injEq] at hr
      exact hr ▸ h
  | cons a as ih =>
      rcases run_cons.mp hr with ⟨s', hs', hr'⟩
      exact ih (h.2 s' hs') hr'

/-- A run that keeps a property throughout meets a condition that the property
    after a step says of that step. `I` collects what every step preserves. -/
theorem along_of_always {I P : σ → Prop} {G : σ → α → Prop}
    (hinv : ∀ s a s', I s → step s a = some s' → I s')
    (hstep : ∀ s a s', I s → step s a = some s' → P s' → G s a)
    {s : σ} (as : List α) (hi : I s) (h : Always step P s as) : Along step G s as := by
  induction as generalizing s with
  | nil => trivial
  | cons a as ih =>
      exact fun s' hs' => ⟨hstep s a s' hi hs' (always_start (h.2 s' hs')),
        ih (hinv s a s' hi hs') (h.2 s' hs')⟩

/-- A run keeps a property throughout exactly when all its steps meet a
    condition. `I` collects what a step preserves as long as the property
    holds; on such states, a step keeps the property exactly when it meets the
    condition. -/
theorem always_iff_along {I P : σ → Prop} {G : σ → α → Prop}
    (hinv : ∀ s a s', I s → P s → step s a = some s' → I s')
    (hstep : ∀ s a s', I s → P s → step s a = some s' → (P s' ↔ G s a))
    {s : σ} (as : List α) (hi : I s) (hs : P s) :
    Always step P s as ↔ Along step G s as := by
  induction as generalizing s with
  | nil => exact ⟨fun _ => trivial, fun _ => hs⟩
  | cons a as ih =>
      constructor
      · rintro ⟨_, h⟩ s' hs'
        -- The property holds after the first step, so the step met the condition.
        have hP := always_start (h s' hs')
        have hrest := ih (hinv s a s' hi hs hs') hP
        exact ⟨(hstep s a s' hi hs hs').mp hP, hrest.mp (h s' hs')⟩
      · intro h
        refine ⟨hs, fun s' hs' => ?_⟩
        -- The first step met the condition, so the property holds after it.
        have hP := (hstep s a s' hi hs hs').mpr (h s' hs').1
        have hrest := ih (hinv s a s' hi hs hs') hP
        exact hrest.mpr (h s' hs').2

/-- A run meets a condition throughout if violating it leads to a property that
    no step ends, and the run does not end with that property. `I` collects
    what every step preserves. -/
theorem along_of_not_end {I Q : σ → Prop} {G : σ → α → Prop}
    (hinv : ∀ s a s', I s → step s a = some s' → I s')
    (henter : ∀ s a s', I s → step s a = some s' → ¬ G s a → Q s')
    (hstay : ∀ s a s', I s → Q s → step s a = some s' → Q s')
    {s t : σ} {as : List α} (hi : I s) (hr : run step s as = some t) (ht : ¬ Q t) :
    Along step G s as := by
  induction as generalizing s with
  | nil => trivial
  | cons a as ih =>
      rcases run_cons.mp hr with ⟨s₁, hs₁, hr₁⟩
      intro s' hs'
      have heq : s₁ = s' := Option.some.inj (hs₁.symm.trans hs')
      subst heq
      have hi₁ := hinv s a s₁ hi hs₁
      refine ⟨Classical.byContradiction fun hg => ?_, ih hi₁ hr₁⟩
      -- Had the step violated it, the run would have ended with the property.
      have hkeep : ∀ u b v, I u ∧ Q u → step u b = some v → I v ∧ Q v :=
        fun u b v hu hv => ⟨hinv u b v hu.1 hv, hstay u b v hu.1 hu.2 hv⟩
      exact ht (run_invariant hkeep ⟨hi₁, henter s a s₁ hi hs₁ hg⟩ hr₁).2

end

end Lts
