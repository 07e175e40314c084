import Isolyx.Library.Select
import Isolyx.Library.Service
import Mathlib.Algebra.Order.Ring.Int

/-!
# One Server and a Queue with Levels

A server that takes the first item of the least level, where what comes back
of an item is one level above it. From a queue with no item below a level, it
serves what stands on that level, in the order of the queue, and what comes
back of this stands behind everything else (`serves_level`). So the server goes
through the levels once, and what it finds on one of them is what was there at
the start, followed by what came back from the level before (`serves_levels`).

Which items the discipline holds for may be limited by a property that what
comes back keeps, so that levels may be represented by numbers that overflow.

## Main definitions

* `Feedback`: The discipline.
* `sunk`: What has come back to a level.

## Theorems

* `serves_level`: One level.
* `serves_levels`: Level after level.
-/

namespace Service

variable {α : Type*} {pick : List α → Option (α × List α)} {back : α → Option α}
  {level : α → Int} {I : α → Prop}

/-- The first item of the least level is taken and comes back one level higher. -/
structure Feedback (pick : List α → Option (α × List α)) (back : α → Option α)
    (level : α → Int) (I : α → Prop) : Prop where
  isSome : ∀ q, q ≠ [] → (pick q).isSome
  least : ∀ q x rest, (∀ y ∈ q, I y) → pick q = some (x, rest) →
    ∃ pre post, q = pre ++ x :: post ∧ rest = pre ++ post ∧ Select.FirstLeast level pre x post
  rises : ∀ x y, I x → back x = some y → I y ∧ level y = level x + 1

/-- What has come back to level `k` from the one before it, `first` being what
    each level had. -/
def sunk (back : α → Option α) (first : Nat → List α) : Nat → List α
  | 0 => []
  | k + 1 => (first k ++ sunk back first k).filterMap back

theorem toList_append_filterMap (x : α) (q : List α) :
    (back x).toList ++ q.filterMap back = (x :: q).filterMap back := by
  cases hb : back x with
  | none => simp only [List.filterMap_cons, hb, Option.toList_none, List.nil_append]
  | some y => simp only [List.filterMap_cons, hb, Option.toList_some, List.singleton_append]

/-- The server takes the first item of a level that has none below it. -/
theorem Feedback.takes_first (hf : Feedback pick back level I) {l : Int} {q rest here : List α}
    {x y : α} (hi : ∀ z ∈ q, I z) (hleast : ∀ z ∈ q, l ≤ level z)
    (hhere : q.filter (fun z => level z = l) = x :: here) (hpick : pick q = some (y, rest)) :
    y = x ∧ level x = l ∧ rest.filter (fun z => level z = l) = here ∧
      rest.filter (fun z => level z ≠ l) = q.filter fun z => level z ≠ l := by
  rcases hf.least q y rest hi hpick with ⟨pre, post, rfl, rfl, hfirst⟩
  have hx : x ∈ (pre ++ y :: post).filter fun z => level z = l := hhere ▸ List.mem_cons_self
  rw [List.mem_filter, decide_eq_true_iff] at hx
  have hly := hleast y (List.mem_append_right pre List.mem_cons_self)
  -- somebody is on the level, so the one that is taken is
  have hy : level y = l := by
    rcases List.mem_append.mp hx.1 with hmem | hmem
    · have := hfirst.before x hmem
      omega
    · rcases List.mem_cons.mp hmem with rfl | hmem
      · exact hx.2
      · have := hfirst.after x hmem
        omega
  have hpre : pre.filter (fun z => level z = l) = [] := by
    refine List.filter_eq_nil_iff.mpr fun z hz => ?_
    have := hfirst.before z hz
    rw [decide_eq_true_iff]
    omega
  rw [List.filter_append, hpre, List.nil_append, List.filter_cons_of_pos (by simp [hy]),
    List.cons.injEq] at hhere
  refine ⟨hhere.1, hx.2, ?_, ?_⟩
  · rw [List.filter_append, hpre, List.nil_append, hhere.2]
  · rw [List.filter_append, List.filter_append, List.filter_cons_of_neg (by simp [hy])]

/-- One level: what stands on it is served, and comes back behind all the rest. -/
theorem serves_level (hf : Feedback pick back level I) {l : Int} {q here : List α}
    (hi : ∀ z ∈ q, I z) (hleast : ∀ z ∈ q, l ≤ level z)
    (hhere : q.filter (fun z => level z = l) = here) :
    Serves pick back q here (q.filter (fun z => level z ≠ l) ++ here.filterMap back) := by
  induction here generalizing q with
  | nil =>
      have hrest : q.filter (fun z => level z ≠ l) = q := by
        refine List.filter_eq_self.mpr fun z hz => ?_
        have hnot := List.filter_eq_nil_iff.mp hhere z hz
        simpa using hnot
      rw [hrest, List.filterMap_nil, List.append_nil]
      exact .done q
  | cons x here ih =>
      have hne : q ≠ [] := by
        rintro rfl
        simp only [List.filter_nil, reduceCtorEq] at hhere
      rcases Option.isSome_iff_exists.mp (hf.isSome q hne) with ⟨⟨y, rest⟩, hpick⟩
      rcases hf.takes_first hi hleast hhere hpick with ⟨rfl, hx, hrest, hother⟩
      rcases hf.least q y rest hi hpick with ⟨pre, post, hq, hr, _⟩
      have hmem : ∀ z ∈ rest, z ∈ q := fun z hz => by
        rw [hr] at hz
        rw [hq]
        exact List.mem_append.mpr ((List.mem_append.mp hz).imp_right (List.mem_cons_of_mem y))
      have hiy : I y := hi y (hq ▸ List.mem_append_right pre List.mem_cons_self)
      -- what comes back stands on the next level, and behind everything
      have hback : ∀ z ∈ (back y).toList, I z ∧ level z = l + 1 := by
        intro z hz
        have hrises := hf.rises y z hiy (Option.mem_toList.mp hz)
        exact ⟨hrises.1, hx ▸ hrises.2⟩
      have hsame : (back y).toList.filter (fun z => level z = l) = [] :=
        List.filter_eq_nil_iff.mpr fun z hz => by
          have := (hback z hz).2
          rw [decide_eq_true_iff]
          omega
      have hnext : (back y).toList.filter (fun z => level z ≠ l) = (back y).toList :=
        List.filter_eq_self.mpr fun z hz => by
          have := (hback z hz).2
          rw [decide_eq_true_iff]
          omega
      have hturns := ih (q := rest ++ (back y).toList)
        (fun z hz => (List.mem_append.mp hz).elim (fun h => hi z (hmem z h))
          fun h => (hback z h).1)
        (fun z hz => (List.mem_append.mp hz).elim (fun h => hleast z (hmem z h))
          fun h => by have := (hback z h).2; omega)
        (by rw [List.filter_append, hrest, hsame, List.append_nil])
      rw [List.filter_append, hnext, hother, List.append_assoc, toList_append_filterMap] at hturns
      exact .turn q rest here _ y hpick hturns

/-- What comes back to a level stands on it, as it rose from the one before. -/
theorem sunk_spec (hf : Feedback pick back level I) {first : Nat → List α} {low : Int}
    (hfirst : ∀ k, ∀ x ∈ first k, I x ∧ level x = low + k) (k : Nat) :
    ∀ x ∈ sunk back first k, I x ∧ level x = low + k := by
  induction k with
  | zero => exact fun x hx => absurd hx List.not_mem_nil
  | succ k ih =>
      intro x hx
      rcases List.mem_filterMap.mp hx with ⟨y, hy, hxy⟩
      have hlow : I y ∧ level y = low + k :=
        (List.mem_append.mp hy).elim (hfirst k y) (ih y)
      rcases hf.rises y x hlow.1 hxy with ⟨hix, hrise⟩
      exact ⟨hix, by omega⟩

/-- Level after level, from one that has none below it. -/
theorem serves_levels (hf : Feedback pick back level I) (low : Int) {q : List α}
    (hi : ∀ x ∈ q, I x) (hlow : ∀ x ∈ q, low ≤ level x) {first : Nat → List α}
    (hfirst : ∀ k : Nat, first k = q.filter fun x => level x = low + k) (n : Nat) :
    Serves pick back q ((List.range n).flatMap fun k => first k ++ sunk back first k)
      (q.filter (fun x => low + n ≤ level x) ++ sunk back first n) := by
  have hspec : ∀ k, ∀ x ∈ first k, I x ∧ level x = low + k := by
    intro k x hx
    rw [hfirst, List.mem_filter, decide_eq_true_iff] at hx
    exact ⟨hi x hx.1, hx.2⟩
  induction n with
  | zero =>
      have hall : q.filter (fun x => low + (0 : Nat) ≤ level x) = q :=
        List.filter_eq_self.mpr fun x hx => by
          have := hlow x hx
          rw [decide_eq_true_iff]
          omega
      rw [hall, sunk, List.append_nil]
      exact .done q
  | succ n ih =>
      have hsunk := sunk_spec hf hspec n
      -- on this level stands what was there and what came back to it
      have hhere : (q.filter (fun x => low + n ≤ level x) ++ sunk back first n).filter
          (fun x => level x = low + n) = first n ++ sunk back first n := by
        rw [List.filter_append, List.filter_filter, hfirst]
        congr 1
        · refine List.filter_congr fun x _ => ?_
          by_cases hx : level x = low + n
          · simp only [hx, Int.le_refl, decide_true, Bool.and_self]
          · simp only [hx, decide_false, Bool.false_and]
        · refine List.filter_eq_self.mpr fun x hx => ?_
          rw [decide_eq_true_iff]
          exact (hsunk x hx).2
      have habove : (q.filter (fun x => low + n ≤ level x) ++ sunk back first n).filter
          (fun x => level x ≠ low + n) = q.filter fun x => low + (n + 1 : Nat) ≤ level x := by
        have hnone : (sunk back first n).filter (fun x => level x ≠ low + n) = [] :=
          List.filter_eq_nil_iff.mpr fun x hx => by simp [(hsunk x hx).2]
        rw [List.filter_append, hnone, List.append_nil, List.filter_filter]
        refine List.filter_congr fun x _ => ?_
        rw [← Bool.decide_and]
        exact decide_eq_decide.mpr (by omega)
      have hround := serves_level hf (q := q.filter (fun x => low + n ≤ level x)
        ++ sunk back first n) (l := low + n) ?_ ?_ hhere
      · rw [habove] at hround
        rw [List.range_succ, List.flatMap_append, List.flatMap_singleton]
        exact ih.trans hround
      · intro x hx
        exact (List.mem_append.mp hx).elim (fun h => hi x (List.mem_filter.mp h).1)
          fun h => (hsunk x h).1
      · intro x hx
        exact (List.mem_append.mp hx).elim
          (fun h => of_decide_eq_true (List.mem_filter.mp h).2)
          fun h => by have := (hsunk x h).2; omega

end Service
