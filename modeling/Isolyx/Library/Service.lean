import Mathlib.Algebra.GroupWithZero.Nat
import Mathlib.Data.List.Infix
import Mathlib.Data.List.Perm.Basic
import Mathlib.Tactic.Common

/-!
# One Server and a Queue

A server that takes one item at a time out of a queue. `pick` says which item
it takes and what it leaves, `back` what comes back from the item when its turn
is over, if anything does; what comes back goes to the end of the queue, and
nothing else arrives. So the order of service is a function of the queue.

`Serves q xs t` says that from the queue `q` the turns `xs`, in this order,
lead to the queue `t`. It composes, and what is served from a queue is a prefix
of whatever ends with the queue empty (`Serves.isPrefix`). `serve` computes the
order, given enough turns (`serves_serve`).

A server that always takes the front serves in rounds: one turn for everything
in the queue, and then the same for what came back (`serves_rounds`).

## Main definitions

* `Serves`: Some turns lead from one queue to another.
* `serve`: The order of service, up to a number of turns.
* `front`: Taking the front.

## Theorems

* `Serves.trans`: Turns after turns.
* `Serves.isPrefix`: Turns are the first turns of any that empty the queue.
* `Serves.unique`: Two ways to empty the queue are the same.
* `serves_serve`: Enough turns empty the queue.
* `serves_front`: One round.
* `serves_rounds`: Round after round.
-/

namespace Service

variable {α : Type*}

/-- Turns that lead from one queue to another. -/
inductive Serves (pick : List α → Option (α × List α)) (back : α → Option α) :
    List α → List α → List α → Prop
  | done (q : List α) : Serves pick back q [] q
  | turn (q rest xs t : List α) (x : α) (h : pick q = some (x, rest))
      (hs : Serves pick back (rest ++ (back x).toList) xs t) : Serves pick back q (x :: xs) t

/-- The order of service, for as many turns as `k`. -/
def serve (pick : List α → Option (α × List α)) (back : α → Option α) : Nat → List α → List α
  | 0, _ => []
  | k + 1, q => match pick q with
    | none => []
    | some (x, rest) => x :: serve pick back k (rest ++ (back x).toList)

/-- Taking the front. -/
def front : List α → Option (α × List α)
  | [] => none
  | x :: q => some (x, q)

section

variable {pick : List α → Option (α × List α)} {back : α → Option α}

theorem serves_one {q rest : List α} {x : α} (h : pick q = some (x, rest)) :
    Serves pick back q [x] (rest ++ (back x).toList) :=
  .turn q rest [] _ x h (.done _)

theorem Serves.trans {q xs m ys t : List α} (h : Serves pick back q xs m)
    (h' : Serves pick back m ys t) : Serves pick back q (xs ++ ys) t := by
  induction h with
  | done q => exact h'
  | turn q rest xs m x hpick _ ih => exact .turn q rest (xs ++ ys) t x hpick (ih h')

/-- If an empty queue offers nothing, some turns are the first ones of any that
    leave the queue empty. -/
theorem Serves.isPrefix {q xs ys t : List α} (hnil : pick [] = none)
    (h : Serves pick back q xs []) (h' : Serves pick back q ys t) : ys <+: xs := by
  generalize hempty : ([] : List α) = e at h
  induction h generalizing ys with
  | done q =>
      subst hempty
      cases h' with
      | done => exact List.prefix_rfl
      | turn _ _ _ _ _ hpick => exact absurd (hnil.symm.trans hpick) (Option.some_ne_none _).symm
  | turn q rest xs e x hpick _ ih =>
      cases h' with
      | done => exact List.nil_prefix
      | turn _ rest' ys' _ y hpick' hs' =>
          -- both take the item that `pick` offers
          have heq := Option.some.inj (hpick.symm.trans hpick')
          rw [Prod.mk.injEq] at heq
          rcases heq with ⟨rfl, rfl⟩
          exact List.prefix_cons_inj x |>.mpr (ih hs' hempty)

theorem Serves.unique {q xs ys : List α} (hnil : pick [] = none)
    (h : Serves pick back q xs []) (h' : Serves pick back q ys []) : ys = xs :=
  (h.isPrefix hnil h').eq_of_length_le (h'.isPrefix hnil h).length_le

/-- Turns under one discipline are turns under another, if the two agree on the
    queues passed through. -/
theorem Serves.of_agree {pick' : List α → Option (α × List α)} {I : List α → Prop}
    (hagree : ∀ q x rest, I q → pick q = some (x, rest) →
      pick' q = some (x, rest) ∧ I (rest ++ (back x).toList))
    {q xs t : List α} (hi : I q) (h : Serves pick back q xs t) : Serves pick' back q xs t := by
  induction h with
  | done q => exact .done q
  | turn q rest xs t x hpick _ ih =>
      rcases hagree q x rest hi hpick with ⟨hpick', hi'⟩
      exact .turn q rest xs t x hpick' (ih hi')

/-- Every turn takes from the work there is, so that many turns empty the queue. -/
theorem serves_serve (work : α → Nat) (hsome : ∀ q, q ≠ [] → (pick q).isSome)
    (hperm : ∀ q x rest, pick q = some (x, rest) → q.Perm (x :: rest))
    (hback : ∀ x y, back x = some y → 0 < work y ∧ work y < work x) :
    ∀ (k : Nat) (q : List α), (∀ x ∈ q, 0 < work x) → (q.map work).sum ≤ k →
      Serves pick back q (serve pick back k q) [] := by
  intro k
  induction k with
  | zero =>
      intro q hpos hk
      cases q with
      | nil => exact .done []
      | cons x q =>
          have hx := hpos x List.mem_cons_self
          simp only [List.map_cons, List.sum_cons] at hk
          omega
  | succ k ih =>
      intro q hpos hk
      cases hq : pick q with
      | none =>
          have hnil : q = [] := by
            by_contra hne
            rw [← Option.not_isSome_iff_eq_none] at hq
            exact hq (hsome q hne)
          rw [hnil] at hq ⊢
          simp only [serve, hq]
          exact .done []
      | some p =>
          rcases p with ⟨x, rest⟩
          simp only [serve, hq]
          have hxr := hperm q x rest hq
          have hx : 0 < work x := hpos x (hxr.mem_iff.mpr List.mem_cons_self)
          have hsum := (hxr.map work).sum_nat
          rw [List.map_cons, List.sum_cons] at hsum
          refine .turn q rest _ _ x hq (ih _ (fun y hy => ?_) ?_)
          · rcases List.mem_append.mp hy with hy | hy
            · exact hpos y (hxr.mem_iff.mpr (List.mem_cons_of_mem x hy))
            · exact (hback x y (Option.mem_toList.mp hy)).1
          · rw [List.map_append, List.sum_append]
            cases hb : back x with
            | none =>
                simp only [Option.toList_none, List.map_nil, List.sum_nil]
                omega
            | some y =>
                have hy := (hback x y hb).2
                simp only [Option.toList_some, List.map_singleton, List.sum_singleton]
                omega

end

/-- A server that takes the front gives one turn to everything that stands in
    the queue, and what comes back stands behind what follows. -/
theorem serves_front (back : α → Option α) (q r : List α) :
    Serves front back (q ++ r) q (r ++ q.filterMap back) := by
  induction q generalizing r with
  | nil =>
      rw [List.filterMap_nil, List.append_nil]
      exact .done r
  | cons x q ih =>
      have hrest := ih (r ++ (back x).toList)
      rw [List.append_assoc] at hrest
      have hcomes : (back x).toList ++ q.filterMap back = (x :: q).filterMap back := by
        cases hb : back x with
        | none => simp only [List.filterMap_cons, hb, Option.toList_none, List.nil_append]
        | some y => simp only [List.filterMap_cons, hb, Option.toList_some, List.singleton_append]
      rw [hcomes, ← List.append_assoc] at hrest
      exact .turn _ (q ++ r) q _ x rfl hrest

/-- Round after round, each for what the one before sent back. -/
theorem serves_rounds {back : α → Option α} {level : Nat → List α}
    (hlevel : ∀ r, (level r).filterMap back = level (r + 1)) (n : Nat) :
    Serves front back (level 0) ((List.range n).flatMap level) (level n) := by
  induction n with
  | zero => exact .done _
  | succ n ih =>
      have hround := serves_front back (level n) []
      rw [List.append_nil, List.nil_append, hlevel] at hround
      rw [List.range_succ, List.flatMap_append, List.flatMap_singleton]
      exact ih.trans hround

end Service
