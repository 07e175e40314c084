import Mathlib.Data.List.Basic
import Mathlib.Tactic.Common

/-!
# Splitting at a Delimiter

What a loop of `std::getline` with a delimiter reads from a stream that ends.
Each call takes what is left up to the next delimiter, or up to the end, and
fails if nothing is left to take. So a delimiter ends a segment, an empty one
as well, and what follows the last delimiter is a segment only if it is not
empty.

## Main definitions

* `segments`: The segments of a sequence.

## Theorems

* `exists_last`: Where there is a delimiter, there is a last one.
* `segments_append`: A delimiter ends a segment.
* `segments_of_not_mem`: Without a delimiter there is one segment.
* `length_segments`: The number of segments.
-/

namespace Split

variable {α : Type*} [DecidableEq α] (delim : α)

/-- The segments of what is left, given the beginning of one already read. -/
def segmentsFrom (segment : List α) : List α → List (List α)
  | [] => if segment.isEmpty then [] else [segment]
  | a :: s =>
      if a = delim then segment :: segmentsFrom [] s else segmentsFrom (segment ++ [a]) s

/-- The segments of a sequence. -/
def segments (s : List α) : List (List α) := segmentsFrom delim [] s

variable {delim}

/-- Elements that are no delimiter go on with the segment. -/
theorem segmentsFrom_append (segment : List α) {t : List α} (s : List α) (h : delim ∉ t) :
    segmentsFrom delim segment (t ++ s) = segmentsFrom delim (segment ++ t) s := by
  induction t generalizing segment with
  | nil => rw [List.nil_append, List.append_nil]
  | cons a t ih =>
      rw [List.mem_cons, not_or] at h
      rw [List.cons_append, segmentsFrom, if_neg (Ne.symm h.1), ih _ h.2, List.append_assoc,
        List.singleton_append]

omit [DecidableEq α] in
/-- Where there is a delimiter, there is a last one. -/
theorem exists_last {s : List α} (h : delim ∈ s) : ∃ t u, s = t ++ delim :: u ∧ delim ∉ u := by
  rcases List.eq_append_cons_of_mem (List.mem_reverse.mpr h) with ⟨u, t, hs, hu⟩
  refine ⟨t.reverse, u.reverse, ?_, fun hmem => hu (List.mem_reverse.mp hmem)⟩
  rw [← List.reverse_reverse s, hs, List.reverse_append, List.reverse_cons, List.append_assoc,
    List.singleton_append]

/-- A delimiter ends a segment. -/
theorem segments_append {t : List α} (s : List α) (h : delim ∉ t) :
    segments delim (t ++ delim :: s) = t :: segments delim s := by
  rw [segments, segmentsFrom_append [] _ h, List.nil_append, segmentsFrom, if_pos rfl, segments]

/-- Without a delimiter there is one segment. -/
theorem segments_of_not_mem {s : List α} (hne : s ≠ []) (h : delim ∉ s) :
    segments delim s = [s] := by
  have hall := segmentsFrom_append [] [] h
  rw [List.append_nil, List.nil_append] at hall
  rw [segments, hall, segmentsFrom, if_neg fun he => hne (List.isEmpty_iff.mp he)]

omit [DecidableEq α] in
theorem getLast?_cons_eq_some {a b : α} {s : List α} :
    (a :: s).getLast? = some b ↔ s.getLast? = some b ∨ s = [] ∧ a = b := by
  cases s with
  | nil => simp only [List.getLast?_singleton, Option.some.injEq, List.getLast?_nil, reduceCtorEq,
      true_and, false_or]
  | cons c s => simp only [List.getLast?_cons_cons, reduceCtorEq, false_and, or_false]

theorem length_segmentsFrom (segment s : List α) :
    (segmentsFrom delim segment s).length + (if s.getLast? = some delim ∨ segment ++ s = []
      then 1 else 0) = s.count delim + 1 := by
  induction s generalizing segment with
  | nil =>
      rw [segmentsFrom, List.append_nil, List.getLast?_nil]
      by_cases hs : segment = []
      · rw [hs]
        rfl
      · rw [if_neg fun he => hs (List.isEmpty_iff.mp he), if_neg]
        · rfl
        · simp only [hs, reduceCtorEq, or_self, not_false_eq_true]
  | cons a s ih =>
      by_cases ha : a = delim
      · -- the delimiter ends a segment, and another one begins
        have hrest := ih []
        rw [List.nil_append] at hrest
        have hlast : (a :: s).getLast? = some delim ∨ segment ++ a :: s = [] ↔
            s.getLast? = some delim ∨ s = [] := by
          rw [getLast?_cons_eq_some, List.append_eq_nil_iff]
          simp only [ha, and_true, reduceCtorEq, and_false, or_false]
        rw [segmentsFrom, if_pos ha, if_congr hlast rfl rfl, ha, List.count_cons_self,
          List.length_cons]
        omega
      · have hrest := ih (segment ++ [a])
        have hlast : (a :: s).getLast? = some delim ∨ segment ++ a :: s = [] ↔
            s.getLast? = some delim ∨ (segment ++ [a]) ++ s = [] := by
          rw [getLast?_cons_eq_some, List.append_assoc, List.singleton_append]
          simp only [ha, and_false, or_false]
        rw [segmentsFrom, if_neg ha, if_congr hlast rfl rfl, List.count_cons_of_ne ha]
        exact hrest

/-- There is one segment more than there are delimiters, unless nothing follows
    the last one. -/
theorem length_segments (s : List α) :
    (segments delim s).length + (if s = [] ∨ s.getLast? = some delim then 1 else 0)
      = s.count delim + 1 := by
  rw [if_congr Or.comm rfl rfl]
  exact length_segmentsFrom [] s

end Split
