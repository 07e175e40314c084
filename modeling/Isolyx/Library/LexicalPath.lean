import Mathlib.Data.List.DropRight
import Mathlib.Tactic.Common

/-!
# Paths as Text

A path as the sequence of its characters, taken apart at a separator without
asking a file system: what follows the last separator, and the parent path as
`std::filesystem` has it. The parent is the text without its last component
and the separators before that. A path of separators is its own parent.

## Main definitions

* `afterLast`: What follows the last separator.
* `parent`: The parent path.
* `join`: Names with a separator before each.
* `EndsInName`: The last character is there and is no separator.

## Theorems

* `afterLast_append`: A separator ends what was before it.
* `parent_append`: The parent of a path with a component at its end.
* `endsInName_join`: A path to which names were joined ends in a name.
-/

namespace LexicalPath

variable {α : Type*} [DecidableEq α] (sep : α)

/-- What follows the last separator; everything if there is none. -/
def afterLast (s : List α) : List α := s.rtakeWhile (· != sep)

/-- The parent path. -/
def parent (s : List α) : List α :=
  if s.all (· == sep) then s
  else match (s.rdropWhile (· != sep)).rdropWhile (· == sep) with
    -- the root, or nothing for a path of one component
    | [] => (s.takeWhile (· == sep)).take 1
    | dir => dir

/-- Names with a separator before each. -/
def join (names : List (List α)) : List α := names.flatMap (sep :: ·)

/-- There is a last character, and it is no separator. -/
def EndsInName (s : List α) : Prop := ∃ t a, s = t ++ [a] ∧ a ≠ sep

variable {sep}

/-- A separator ends what was before it. -/
theorem afterLast_append {s t : List α} (h : sep ∉ t) : afterLast sep (s ++ sep :: t) = t := by
  have hall : ∀ a ∈ t.reverse, (a != sep) = true := by
    intro a ha
    rw [bne_iff_ne]
    rintro rfl
    exact h (List.mem_reverse.mp ha)
  rw [afterLast, List.rtakeWhile, List.reverse_append, List.reverse_cons, List.append_assoc,
    List.takeWhile_append_of_pos hall, List.singleton_append, List.takeWhile_cons_of_neg (by simp),
    List.append_nil, List.reverse_reverse]

theorem rdropWhile_ne {s t : List α} (h : sep ∉ t) :
    (s ++ sep :: t).rdropWhile (· != sep) = s ++ [sep] := by
  have hsplit := List.rdropWhile_append_rtakeWhile (p := (· != sep)) (l := s ++ sep :: t)
  rw [show (s ++ sep :: t).rtakeWhile (· != sep) = t from afterLast_append h] at hsplit
  refine List.append_cancel_right (hsplit.trans ?_)
  rw [List.append_assoc, List.singleton_append]

/-- The parent of a path with a component at its end. -/
theorem parent_append {s t : List α} (hs : EndsInName sep s) (h : sep ∉ t) :
    parent sep (s ++ sep :: t) = s := by
  rcases hs with ⟨u, a, rfl, ha⟩
  have hname : ¬ ((u ++ [a]) ++ sep :: t).all (· == sep) = true := by
    rw [List.all_eq_true]
    exact fun hall => ha (beq_iff_eq.mp (hall a (by simp)))
  have hdir : ((u ++ [a]) ++ [sep]).rdropWhile (· == sep) = u ++ [a] := by
    rw [List.rdropWhile_concat_pos _ _ _ (by simp),
      List.rdropWhile_concat_neg _ _ _ (by simpa using ha)]
  rw [parent, if_neg hname, rdropWhile_ne h, hdir]
  cases hu : u ++ [a] with
  | nil => exact absurd hu (by simp)
  | cons b v => rfl

omit [DecidableEq α] in
theorem endsInName_append {s t : List α} (ht : t ≠ []) (h : sep ∉ t) :
    EndsInName sep (s ++ t) := by
  refine ⟨s ++ t.dropLast, t.getLast ht, ?_, ?_⟩
  · rw [List.append_assoc, List.dropLast_append_getLast ht]
  · rintro heq
    exact h (heq ▸ List.getLast_mem ht)

omit [DecidableEq α] in
/-- What a path ends in is up to its end. -/
theorem EndsInName.of_append {s t : List α} (h : EndsInName sep (s ++ t)) (ht : t ≠ [])
    (u : List α) : EndsInName sep (u ++ t) := by
  rcases h with ⟨v, a, heq, ha⟩
  have hlast : t.getLast ht = a := by
    have hall := List.getLast_append_of_ne_nil (l := s) (by simp [ht]) ht
    rw [← hall]
    simp [heq]
  refine ⟨u ++ t.dropLast, a, ?_, ha⟩
  rw [List.append_assoc, ← hlast, List.dropLast_append_getLast ht]

omit [DecidableEq α] in
/-- A path to which names were joined ends in a name. -/
theorem endsInName_join {s : List α} (hs : EndsInName sep s) {names : List (List α)}
    (h : ∀ t ∈ names, t ≠ [] ∧ sep ∉ t) : EndsInName sep (s ++ join sep names) := by
  induction names generalizing s with
  | nil =>
      rw [join, List.flatMap_nil, List.append_nil]
      exact hs
  | cons t names ih =>
      have ht := h t List.mem_cons_self
      have hstep : EndsInName sep (s ++ sep :: t) := by
        have happend := endsInName_append (s := s ++ [sep]) ht.1 ht.2
        rwa [List.append_assoc, List.singleton_append] at happend
      have hrest := ih hstep fun x hx => h x (List.mem_cons_of_mem t hx)
      rwa [List.append_assoc] at hrest

end LexicalPath
