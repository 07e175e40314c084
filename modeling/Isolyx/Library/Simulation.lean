import Isolyx.Library.Run

/-!
# Simulations

One step function simulates another if whatever the concrete one does is shown
as an event that the abstract one can follow, or as nothing. The relation `R`
between the states may carry the invariants of the concrete system. A run of
the concrete system is then, event by event, a run of the abstract one
(`run_of_simulates`), so what holds of the event lists of the small system
holds of the traces of the large one.

## Main definitions

* `Simulates`: Every concrete step is followed by an abstract one, or by none.

## Theorems

* `run_of_simulates`: The trace of a run is a run of the abstract system.
-/

namespace Lts

variable {σ τ α β : Type*} {step : σ → α → Option σ} {next : τ → β → Option τ}
  {shows : σ → α → Option β} {R : σ → τ → Prop}

/-- A step that shows an event is one of the abstract system, and any other
    leaves it where it is. -/
structure Simulates (step : σ → α → Option σ) (next : τ → β → Option τ)
    (shows : σ → α → Option β) (R : σ → τ → Prop) : Prop where
  silent : ∀ s a t u, R s u → step s a = some t → shows s a = none → R t u
  follows : ∀ s a t u e, R s u → step s a = some t → shows s a = some e →
    ∃ v, next u e = some v ∧ R t v

theorem run_of_simulates (h : Simulates step next shows R) {s t : σ} {u : τ} {as : List α}
    (hs : R s u) (hr : run step s as = some t) :
    ∃ v, run next u (trace step shows s as) = some v ∧ R t v := by
  induction as generalizing s u with
  | nil =>
      simp only [run, Option.some.injEq] at hr
      exact ⟨u, rfl, hr ▸ hs⟩
  | cons a as ih =>
      rcases run_cons.mp hr with ⟨s', hs', hr'⟩
      rw [trace_cons hs']
      cases he : shows s a with
      | none => exact ih (h.silent s a s' u hs hs' he) hr'
      | some e =>
          rcases h.follows s a s' u e hs hs' he with ⟨u', hu', hR⟩
          rcases ih hR hr' with ⟨v, hv, hRt⟩
          exact ⟨v, run_cons.mpr ⟨u', hu', hv⟩, hRt⟩

end Lts
