import Mathlib.Algebra.BigOperators.Group.Finset.Basic
import Mathlib.Algebra.Order.BigOperators.Group.Finset
import Mathlib.Data.Fintype.BigOperators

/-!
# Tallies over a Family of Threads

A system of threads is a function from thread names to local states. How many
threads are in a given situation, or how much of something they hold between
them, is a sum over the names, and a step of one thread changes one summand.
An invariant that balances such sums against shared lists is then preserved by
arithmetic on the summand that changed.

## Main definitions

* `tally`: A quantity of local states summed over all threads.

## Theorems

* `tally_update`: Changing one thread changes one summand.
* `sum_update_split`: So it does where the summands are no numbers.
* `tally_update_same`: A step that keeps the summand keeps the tally.
* `tally_congr`: Thread by thread equal quantities have equal tallies.
* `le_tally`: One thread's share is part of the tally.
* `exists_of_tally_pos`: A positive tally has a thread with a share in it.
* `add_le_tally`: So are the shares of two different threads.
* `tally_mono`: A larger quantity has a larger tally.
-/

namespace Threads

variable {ι β : Type*} [Fintype ι] [DecidableEq ι]

omit [DecidableEq ι] in
/-- A quantity of local states, summed over all threads. -/
def tally (f : β → Nat) (ws : ι → β) : Nat := ∑ w, f (ws w)

theorem tally_update (f : β → Nat) (ws : ι → β) (w : ι) (v : β) :
    tally f (Function.update ws w v) + f (ws w) = tally f ws + f v := by
  -- Updating the family updates the family of summands at the same name.
  have hcomp : (fun x => f (Function.update ws w v x))
      = Function.update (fun x => f (ws x)) w (f v) := by
    funext x
    by_cases hx : x = w
    · rw [hx, Function.update_self, Function.update_self]
    · rw [Function.update_of_ne hx, Function.update_of_ne hx]
  unfold tally
  rw [hcomp, Finset.sum_update_of_mem (Finset.mem_univ w),
    ← Finset.add_sum_erase _ (fun x => f (ws x)) (Finset.mem_univ w),
    Finset.sdiff_singleton_eq_erase]
  omega

/-- Changing one thread changes one summand, of whatever sort the summands are. -/
theorem sum_update_split {M : Type*} [AddCommMonoid M] (f : β → M) (ws : ι → β) (w : ι) :
    ∃ rest : M, ∀ v, ∑ x, f (Function.update ws w v x) = f v + rest := by
  refine ⟨∑ x ∈ Finset.univ.erase w, f (ws x), fun v => ?_⟩
  rw [← Finset.add_sum_erase _ _ (Finset.mem_univ w), Function.update_self]
  refine congrArg (f v + ·) (Finset.sum_congr rfl fun x hx => ?_)
  rw [Function.update_of_ne (Finset.ne_of_mem_erase hx)]

theorem tally_update_same {f : β → Nat} {ws : ι → β} {w : ι} {u v : β} (hw : ws w = u)
    (h : f u = f v) : tally f (Function.update ws w v) = tally f ws := by
  have hu := tally_update f ws w v
  rw [hw, h] at hu
  exact Nat.add_right_cancel hu

omit [DecidableEq ι] in
theorem tally_congr {f : β → Nat} {ws ws' : ι → β} (h : ∀ w, f (ws w) = f (ws' w)) :
    tally f ws = tally f ws' :=
  Finset.sum_congr rfl fun w _ => h w

omit [DecidableEq ι] in
theorem tally_mono {f g : β → Nat} (h : ∀ v, f v ≤ g v) (ws : ι → β) :
    tally f ws ≤ tally g ws :=
  Finset.sum_le_sum fun w _ => h (ws w)

omit [DecidableEq ι] in
theorem le_tally (f : β → Nat) (ws : ι → β) (w : ι) : f (ws w) ≤ tally f ws :=
  Finset.single_le_sum (f := fun x => f (ws x)) (fun _ _ => Nat.zero_le _) (Finset.mem_univ w)

omit [DecidableEq ι] in
theorem exists_of_tally_pos {f : β → Nat} {ws : ι → β} (h : 0 < tally f ws) :
    ∃ w, 0 < f (ws w) := by
  by_contra hnone
  have hzero : tally f ws = 0 :=
    Finset.sum_eq_zero fun w _ => Nat.eq_zero_of_not_pos fun hw => hnone ⟨w, hw⟩
  omega

theorem add_le_tally (f : β → Nat) (ws : ι → β) {w w' : ι} (h : w ≠ w') :
    f (ws w) + f (ws w') ≤ tally f ws := by
  have hpair : ∑ x ∈ {w, w'}, f (ws x) = f (ws w) + f (ws w') := Finset.sum_pair h
  rw [← hpair]
  exact Finset.sum_le_sum_of_subset (Finset.subset_univ _)

end Threads
