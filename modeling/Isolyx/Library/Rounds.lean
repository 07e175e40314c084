import Mathlib.Algebra.GroupWithZero.Nat
import Mathlib.Algebra.Order.BigOperators.Group.List
import Mathlib.Data.List.Count
import Mathlib.Data.List.Infix
import Mathlib.Data.List.Nodup
import Mathlib.Tactic.Common

/-!
# Rounds

Items that each want a number of turns, and turns given in rounds: every item
that still wants one has one turn in each round, in one order throughout. What
stands in front of a turn of an item is the rounds before it and, of its own
round, the items that come earlier in the order and are still there
(`split_at`). Everything about when turns come is read off that: counting what
stands in front gives the place of an item's last turn (`last_turn`), and
counting it twice, in front of two turns that follow each other, gives what
stands between them (`between`).

## Main definitions

* `rounds`: The first rounds.

## Theorems

* `length_rounds`: An item has a turn in each round until it has enough.
* `count_rounds`: The same for one item.
* `split_at`: What stands in front of a turn.
* `last_turn`: The place of the last turn.
* `between`: What stands between two turns.
-/

namespace Rounds

variable {β : Type*} (d : β → Nat)

/-- The first `n` rounds of turns for `xs`, of which `x` wants `d x`. -/
def rounds (xs : List β) (n : Nat) : List β :=
  (List.range n).flatMap fun r => xs.filter fun x => r < d x

theorem rounds_zero (xs : List β) : rounds d xs 0 = [] := rfl

theorem rounds_succ (xs : List β) (n : Nat) :
    rounds d xs (n + 1) = rounds d xs n ++ xs.filter fun x => n < d x := by
  rw [rounds, List.range_succ, List.flatMap_append, List.flatMap_singleton, rounds]

theorem rounds_add (xs : List β) (n k : Nat) : rounds d xs n <+: rounds d xs (n + k) := by
  induction k with
  | zero => exact List.prefix_rfl
  | succ k ih =>
      rw [← Nat.add_assoc, rounds_succ]
      exact ih.trans (List.prefix_append _ _)

theorem length_rounds (xs : List β) (n : Nat) :
    (rounds d xs n).length = (xs.map fun x => min (d x) n).sum := by
  induction n with
  | zero =>
      rw [rounds_zero, List.length_nil]
      simp only [Nat.min_zero, List.map_const', List.sum_replicate, nsmul_zero]
  | succ n ih =>
      have hround : (xs.filter fun x => n < d x).length
          = (xs.map fun x => if n < d x then 1 else 0).sum := by
        rw [← List.countP_eq_length_filter]
        clear ih
        induction xs with
        | nil => rfl
        | cons x xs ih =>
            rw [List.countP_cons, List.map_cons, List.sum_cons, ih, Nat.add_comm]
            simp only [decide_eq_true_eq]
      rw [rounds_succ, List.length_append, ih, hround, ← List.sum_map_add]
      congr 2
      funext x
      split <;> omega

section Count

variable [DecidableEq β]

theorem count_filter {xs : List β} (hn : xs.Nodup) (p : β → Bool) (x : β) :
    (xs.filter p).count x = if x ∈ xs ∧ p x = true then 1 else 0 := by
  split
  · rename_i h
    exact List.count_eq_one_of_mem (hn.filter p) (List.mem_filter.mpr h)
  · rename_i h
    exact List.count_eq_zero.mpr fun hmem => h (List.mem_filter.mp hmem)

theorem count_rounds {xs : List β} (hn : xs.Nodup) {x : β} (hx : x ∈ xs) (n : Nat) :
    (rounds d xs n).count x = min (d x) n := by
  induction n with
  | zero => rw [rounds_zero, List.count_nil, Nat.min_zero]
  | succ n ih =>
      rw [rounds_succ, List.count_append, ih, count_filter hn]
      simp only [hx, true_and, decide_eq_true_eq]
      split <;> omega

/-- A list splits in one way at an element with a given number of it in front. -/
theorem split_unique {x : β} {a b a' b' : List β} (h : a ++ x :: b = a' ++ x :: b')
    (hc : a.count x = a'.count x) : a = a' ∧ b = b' := by
  rcases List.append_eq_append_iff.mp h with ⟨c, rfl, hc'⟩ | ⟨c, rfl, hc'⟩
  · cases c with
    | nil =>
        rw [List.nil_append, List.cons.injEq] at hc'
        exact ⟨(List.append_nil a).symm, hc'.2⟩
    | cons y c =>
        rw [List.cons_append, List.cons.injEq] at hc'
        rw [List.count_append, ← hc'.1, List.count_cons_self] at hc
        omega
  · cases c with
    | nil =>
        rw [List.nil_append, List.cons.injEq] at hc'
        exact ⟨List.append_nil a', hc'.2.symm⟩
    | cons y c =>
        rw [List.cons_append, List.cons.injEq] at hc'
        rw [List.count_append, ← hc'.1, List.count_cons_self] at hc
        omega

variable {d}

/-- In front of a turn of `x` stand the rounds before it, and those of its own
    round that come earlier. -/
theorem split_at {xs pre post a b : List β} {x : β} {n : Nat} (hxs : xs = pre ++ x :: post)
    (hn : xs.Nodup) (h : a ++ x :: b <+: rounds d xs n) :
    a.count x < d x ∧
      a = rounds d xs (a.count x) ++ pre.filter fun y => a.count x < d y := by
  rcases h with ⟨c, hc⟩
  have hx : x ∈ xs := hxs ▸ List.mem_append_right pre List.mem_cons_self
  have hpre : x ∉ pre := by
    intro hmem
    rw [hxs] at hn
    exact (List.nodup_append.mp hn).2.2 x hmem x List.mem_cons_self rfl
  -- the item has this turn, so it wants more than it had and the round is among the first `n`
  have htotal := count_rounds d hn hx n
  rw [← hc, List.count_append, List.count_append, List.count_cons_self] at htotal
  have hwant : a.count x < d x := by omega
  have hlast : a.count x < n := by omega
  refine ⟨hwant, ?_⟩
  -- the same turn, found in its round
  rcases rounds_add d xs (a.count x + 1) (n - (a.count x + 1)) with ⟨e, he⟩
  rw [Nat.add_sub_cancel' hlast, rounds_succ] at he
  have hround : (xs.filter fun y => decide (a.count x < d y))
      = (pre.filter fun y => decide (a.count x < d y))
        ++ x :: post.filter fun y => decide (a.count x < d y) := by
    rw [hxs, List.filter_append, List.filter_cons_of_pos (by simpa only [decide_eq_true_eq])]
  have hboth : a ++ x :: (b ++ c)
      = (rounds d xs (a.count x) ++ pre.filter fun y => decide (a.count x < d y))
        ++ x :: ((post.filter fun y => decide (a.count x < d y)) ++ e) := by
    rw [← List.cons_append, ← List.append_assoc, hc, ← he, hround]
    simp only [List.append_assoc, List.cons_append]
  refine (split_unique hboth ?_).1
  have hzero : (pre.filter fun y => decide (a.count x < d y)).count x = 0 :=
    List.count_eq_zero.mpr fun hmem => hpre (List.mem_filter.mp hmem).1
  rw [List.count_append, count_rounds d hn hx, hzero, Nat.add_zero]
  omega

/-- The place of the last turn of an item. An item that comes later in the
    order has had one turn less in the rounds they share. -/
theorem last_turn {xs pre post a b : List β} {x : β} {n : Nat} (hxs : xs = pre ++ x :: post)
    (hn : xs.Nodup) (h : a ++ x :: b <+: rounds d xs n) (hlast : a.count x + 1 = d x) :
    a.length + 1 = ((pre ++ [x]).map fun y => min (d y) (d x)).sum
      + (post.map fun y => min (d y) (d x - 1)).sum := by
  rcases split_at hxs hn h with ⟨hwant, ha⟩
  have hr : a.count x = d x - 1 := by omega
  have hlen := congrArg List.length ha
  rw [List.length_append, length_rounds, hr, hxs, List.map_append, List.sum_append,
    List.map_cons, List.sum_cons] at hlen
  have hpre : (pre.map fun y => min (d y) (d x)).sum
      = (pre.map fun y => min (d y) (d x - 1)).sum
        + (pre.filter fun y => decide (d x - 1 < d y)).length := by
    clear hlen ha h hxs
    induction pre with
    | nil => rfl
    | cons y pre ih =>
        rw [List.map_cons, List.sum_cons, List.map_cons, List.sum_cons, ih]
        by_cases hy : d x - 1 < d y
        · rw [List.filter_cons_of_pos (by simpa only [decide_eq_true_eq]), List.length_cons]
          omega
        · rw [List.filter_cons_of_neg (by simpa only [decide_eq_true_eq])]
          omega
  rw [List.map_append, List.sum_append, List.map_singleton, List.sum_singleton, hpre]
  omega

/-- How many turns of another item stand in front of a turn of `x`. -/
theorem count_before {xs pre post a b : List β} {x y : β} {n : Nat} (hxs : xs = pre ++ x :: post)
    (hn : xs.Nodup) (hy : y ∈ xs) (h : a ++ x :: b <+: rounds d xs n) :
    a.count y = min (d y) (if y ∈ pre then a.count x + 1 else a.count x) := by
  have ha := (split_at hxs hn h).2
  have hpre : pre.Nodup := (List.nodup_append.mp (hxs ▸ hn)).1
  have hc := congrArg (List.count y) ha
  rw [List.count_append, count_rounds d hn hy, count_filter hpre] at hc
  by_cases hmem : y ∈ pre
  · simp only [hmem, true_and, decide_eq_true_eq, if_true] at hc ⊢
    split at hc <;> omega
  · simp only [hmem, false_and, if_false, Nat.add_zero] at hc ⊢
    exact hc

/-- Between two turns of an item that follow each other, every other item has
    one turn if it still wanted one, and none otherwise. -/
theorem between {xs a mid b : List β} {x y : β} {n : Nat} (hn : xs.Nodup) (hx : x ∈ xs)
    (hy : y ∈ xs) (hne : y ≠ x) (h : a ++ x :: (mid ++ x :: b) <+: rounds d xs n)
    (hmid : x ∉ mid) : mid.count y = if a.count y < d y then 1 else 0 := by
  rcases List.append_of_mem hx with ⟨pre, post, hxs⟩
  have hfirst := count_before hxs hn hy h
  have h' : (a ++ x :: mid) ++ x :: b <+: rounds d xs n := by
    rwa [List.append_assoc, List.cons_append]
  have hsecond := count_before hxs hn hy h'
  have hzero : mid.count x = 0 := List.count_eq_zero.mpr hmid
  rw [List.count_append, List.count_cons_of_ne (Ne.symm hne), List.count_append,
    List.count_cons_self, hzero] at hsecond
  by_cases hpre : y ∈ pre
  · rw [if_pos hpre] at hfirst hsecond
    split <;> omega
  · rw [if_neg hpre] at hfirst hsecond
    split <;> omega

end Count

end Rounds
