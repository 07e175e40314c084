import Mathlib.Data.List.Perm.Basic
import Mathlib.Order.Lattice
import Mathlib.Order.OrderDual
import Mathlib.Tactic.Common

/-!
# Selecting and Erasing in a Sequence

`std::min_element` and `std::max_element` as the library documents them: one
scan from the front that keeps the position of the best element so far and
moves it only for a strictly better one, so that the first of several equal
elements is returned. Positions stand for iterators. `takeAt` is the idiom
that follows such a search, moving the element out and erasing its position.

## Main definitions

* `minElement`: The position of the first least element.
* `maxElement`: The position of the first greatest element.
* `takeAt`: Moving the element at a position out of the sequence.
* `comparisons`: What the search for a least element compares.

## Theorems

* `minElement_lt`: The position found lies in a non-empty sequence.
* `takeAt_perm`: Moving an element out neither loses nor copies anything.
* `takeAt_isSome`: Moving out succeeds inside the sequence.
* `takeAt_minElement`: What is moved out is the first least element.
* `takeAt_maxElement`: What is moved out is the first greatest element.
* `forall_comparisons`: Every element is compared, unless it is alone.
-/

namespace Select

variable {α : Type*}

/-- The scan of `std::min_element`: `best` was found at position `pos`, and
    `i` is the position of the first element still to be looked at. -/
def minElementFrom (lt : α → α → Bool) (best : α) (pos i : Nat) : List α → Nat
  | [] => pos
  | x :: xs => if lt x best then minElementFrom lt x i (i + 1) xs
      else minElementFrom lt best pos (i + 1) xs

/-- `std::min_element`. On an empty range this is position zero, which is
    where the range ends. -/
def minElement (lt : α → α → Bool) : List α → Nat
  | [] => 0
  | x :: xs => minElementFrom lt x 0 1 xs

/-- `std::max_element`: the same scan, an element replacing the best one when
    the best one is less. -/
def maxElement (lt : α → α → Bool) (l : List α) : Nat :=
  minElement (fun a b => lt b a) l

/-- Move the element at a position out and erase the position. Nothing is
    returned at the end of the range, where the source's move would be
    undefined. -/
def takeAt (i : Nat) (l : List α) : Option (α × List α) :=
  match l[i]? with
  | none => none
  | some x => some (x, l.eraseIdx i)

theorem minElementFrom_lt (lt : α → α → Bool) : ∀ (l : List α) (best : α) (pos i : Nat),
    pos < i → minElementFrom lt best pos i l < i + l.length := by
  intro l
  -- On the elements still to be looked at, with the best one so far anywhere before them.
  induction l with
  | nil =>
      intro best pos i hpos
      simpa only [minElementFrom, List.length_nil, Nat.add_zero] using hpos
  | cons x xs ih =>
      intro best pos i hpos
      simp only [minElementFrom, List.length_cons]
      split
      · have := ih x i (i + 1) (by omega)
        omega
      · have := ih best pos (i + 1) (by omega)
        omega

theorem minElement_lt (lt : α → α → Bool) {l : List α} (h : l ≠ []) :
    minElement lt l < l.length := by
  cases l with
  | nil => exact absurd rfl h
  | cons x xs =>
      have := minElementFrom_lt lt xs x 0 1 (by omega)
      simp only [minElement, List.length_cons]
      omega

theorem takeAt_isSome {i : Nat} {l : List α} (h : i < l.length) : (takeAt i l).isSome := by
  simp only [takeAt, List.getElem?_eq_getElem h, Option.isSome_some]

theorem takeAt_perm {i : Nat} {l rest : List α} {x : α} (h : takeAt i l = some (x, rest)) :
    l.Perm (x :: rest) := by
  unfold takeAt at h
  split at h
  · exact absurd h (by simp only [reduceCtorEq, not_false_eq_true])
  · rename_i y hy
    simp only [Option.some.injEq, Prod.mk.injEq] at h
    rcases h with ⟨rfl, rfl⟩
    rcases List.getElem?_eq_some_iff.mp hy with ⟨hi, rfl⟩
    exact (List.getElem_cons_eraseIdx_perm hi).symm

theorem takeAt_length (pre : List α) (x : α) (post : List α) :
    takeAt pre.length (pre ++ x :: post) = some (x, pre ++ post) := by
  have hget : (pre ++ x :: post)[pre.length]? = some x := by
    rw [List.getElem?_append_right (Nat.le_refl _), Nat.sub_self, List.getElem?_cons_zero]
  simp only [takeAt, hget, List.eraseIdx_append_of_length_le (Nat.le_refl _), Nat.sub_self,
    List.eraseIdx_cons_zero]

/-- An element with nothing less anywhere, and nothing as little before it. -/
structure FirstLeast {β : Type*} [LinearOrder β] (f : α → β) (pre : List α) (x : α)
    (post : List α) : Prop where
  before : ∀ y ∈ pre, f x < f y
  after : ∀ y ∈ post, f x ≤ f y

section Order

variable {β : Type*} [LinearOrder β] (f : α → β)

/-- The scan stops at the first least element. `best` is that of the part that
    was looked at, `pre ++ best :: mid`. -/
theorem minElementFrom_spec : ∀ (l pre mid : List α) (best : α), FirstLeast f pre best mid →
    ∃ pre' x post, pre ++ best :: mid ++ l = pre' ++ x :: post ∧ FirstLeast f pre' x post ∧
      minElementFrom (fun a b => decide (f a < f b)) best pre.length
        (pre.length + 1 + mid.length) l = pre'.length := by
  intro l
  induction l with
  | nil =>
      intro pre mid best h
      exact ⟨pre, best, mid, List.append_nil _, h, rfl⟩
  | cons y l ih =>
      intro pre mid best h
      by_cases hy : f y < f best
      · -- the new best one, which nothing before it is as little as
        have hfirst : FirstLeast f (pre ++ best :: mid) y [] := by
          refine ⟨fun z hz => ?_, fun z hz => absurd hz List.not_mem_nil⟩
          rcases List.mem_append.mp hz with hz | hz
          · exact hy.trans (h.before z hz)
          · rcases List.mem_cons.mp hz with rfl | hz
            · exact hy
            · exact lt_of_lt_of_le hy (h.after z hz)
        rcases ih (pre ++ best :: mid) [] y hfirst with ⟨pre', x, post, hsplit, hx, hpos⟩
        refine ⟨pre', x, post, ?_, hx, ?_⟩
        · rw [← hsplit, List.append_assoc, List.append_assoc, List.append_assoc]
          rfl
        · rw [← hpos, minElementFrom, if_pos (decide_eq_true hy)]
          simp only [List.length_append, List.length_cons, List.length_nil]
          congr 1 <;> omega
      · have hlater : FirstLeast f pre best (mid ++ [y]) := by
          refine ⟨h.before, fun z hz => ?_⟩
          rcases List.mem_append.mp hz with hz | hz
          · exact h.after z hz
          · rw [List.mem_singleton.mp hz]
            exact not_lt.mp hy
        rcases ih pre (mid ++ [y]) best hlater with ⟨pre', x, post, hsplit, hx, hpos⟩
        refine ⟨pre', x, post, ?_, hx, ?_⟩
        · rw [← hsplit, List.append_assoc, List.append_assoc, List.cons_append,
            List.cons_append, List.append_assoc, List.singleton_append]
        · rw [← hpos, minElementFrom, if_neg (by simpa only [decide_eq_true_eq] using hy)]
          simp only [List.length_append, List.length_singleton]
          congr 1

theorem minElement_spec {l : List α} (h : l ≠ []) : ∃ pre x post, l = pre ++ x :: post ∧
    FirstLeast f pre x post ∧ minElement (fun a b => decide (f a < f b)) l = pre.length := by
  cases l with
  | nil => exact absurd rfl h
  | cons y l =>
      exact minElementFrom_spec f l [] [] y ⟨fun z hz => absurd hz List.not_mem_nil,
        fun z hz => absurd hz List.not_mem_nil⟩

/-- What `std::min_element` and `erase` move out of a sequence is its first
    least element, and the others keep their order. -/
theorem takeAt_minElement {l rest : List α} {x : α}
    (h : takeAt (minElement (fun a b => decide (f a < f b)) l) l = some (x, rest)) :
    ∃ pre post, l = pre ++ x :: post ∧ rest = pre ++ post ∧ FirstLeast f pre x post := by
  have hl : l ≠ [] := by
    rintro rfl
    simp only [takeAt, List.getElem?_nil, reduceCtorEq] at h
  rcases minElement_spec f hl with ⟨pre, y, post, hsplit, hy, hpos⟩
  rw [hpos, hsplit, takeAt_length, Option.some.injEq, Prod.mk.injEq] at h
  rcases h with ⟨rfl, rfl⟩
  exact ⟨pre, post, hsplit, rfl, hy⟩

/-- The same for `std::max_element`. -/
theorem takeAt_maxElement {l rest : List α} {x : α}
    (h : takeAt (maxElement (fun a b => decide (f a < f b)) l) l = some (x, rest)) :
    ∃ pre post, l = pre ++ x :: post ∧ rest = pre ++ post ∧
      (∀ y ∈ pre, f y < f x) ∧ ∀ y ∈ post, f y ≤ f x := by
  rcases takeAt_minElement (fun a => OrderDual.toDual (f a)) h with
    ⟨pre, post, hsplit, hrest, hx⟩
  exact ⟨pre, post, hsplit, hrest, fun y hy => OrderDual.toDual_lt_toDual.mp (hx.before y hy),
    fun y hy => OrderDual.toDual_le_toDual.mp (hx.after y hy)⟩

end Order

section Comparisons

variable (lt : α → α → Bool)

/-- The pairs that the scan of `std::min_element` compares. -/
def comparisonsFrom (best : α) : List α → List (α × α)
  | [] => []
  | x :: xs => (x, best) ::
      if lt x best then comparisonsFrom x xs else comparisonsFrom best xs

/-- The pairs that `std::min_element` compares. -/
def comparisons : List α → List (α × α)
  | [] => []
  | x :: xs => comparisonsFrom lt x xs

theorem forall_comparisonsFrom {P : α → Prop} : ∀ (l : List α) (best : α), P best →
    ((∀ p ∈ comparisonsFrom lt best l, P p.1 ∧ P p.2) ↔ ∀ x ∈ l, P x) := by
  intro l
  induction l with
  | nil =>
      exact fun _ _ => iff_of_true (fun _ h => absurd h List.not_mem_nil)
        fun _ h => absurd h List.not_mem_nil
  | cons x xs ih =>
      intro best hbest
      rw [comparisonsFrom, List.forall_mem_cons, List.forall_mem_cons, and_iff_left hbest]
      refine and_congr_right fun hx => ?_
      -- The scan goes on with one of the two, of which both are known.
      split
      · exact ih x hx
      · exact ih best hbest

/-- Every element of a sequence is compared, unless it is alone. -/
theorem forall_comparisons {P : α → Prop} {l : List α} (h : l ≠ []) :
    (∀ p ∈ comparisons lt l, P p.1 ∧ P p.2) ↔ l.length = 1 ∨ ∀ x ∈ l, P x := by
  cases l with
  | nil => exact absurd rfl h
  | cons x xs =>
      rw [comparisons]
      cases xs with
      | nil => exact iff_of_true (fun _ hp => absurd hp List.not_mem_nil) (.inl rfl)
      | cons y ys =>
          have hlen : (x :: y :: ys).length ≠ 1 := by
            simp only [List.length_cons]
            omega
          rw [or_iff_right hlen]
          constructor
          · intro hp
            have hx : P x := (hp (y, x) List.mem_cons_self).2
            exact List.forall_mem_cons.mpr ⟨hx, (forall_comparisonsFrom lt (y :: ys) x hx).mp hp⟩
          · intro hall
            have hx : P x := hall x List.mem_cons_self
            exact (forall_comparisonsFrom lt (y :: ys) x hx).mpr
              (List.forall_mem_cons.mp hall).2

end Comparisons

section Map

variable {γ : Type*} (lt : γ → γ → Bool) (g : α → γ)

theorem minElementFrom_map : ∀ (l : List α) (best : α) (pos i : Nat),
    minElementFrom lt (g best) pos i (l.map g)
      = minElementFrom (fun a b => lt (g a) (g b)) best pos i l := by
  intro l
  induction l with
  | nil => intro best pos i; rfl
  | cons x l ih =>
      intro best pos i
      simp only [List.map_cons, minElementFrom, ih]

theorem minElement_map (l : List α) :
    minElement lt (l.map g) = minElement (fun a b => lt (g a) (g b)) l := by
  cases l with
  | nil => rfl
  | cons x l => exact minElementFrom_map lt g l x 0 1

theorem takeAt_map (i : Nat) (l : List α) :
    takeAt i (l.map g) = (takeAt i l).map (Prod.map g (List.map g)) := by
  simp only [takeAt, List.getElem?_map]
  cases l[i]? with
  | none => rfl
  | some x => simp only [Option.map_some, Prod.map_apply, List.eraseIdx_map]

end Map

end Select
