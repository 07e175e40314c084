import Mathlib.Data.List.Nodup
import Mathlib.Data.List.Perm.Subperm
import Mathlib.Tactic.Common

/-!
# Descriptor Tables

The table of open descriptors of a process, with the calls of POSIX that change
it: opening at the lowest free number, `close` and `dup2`. What a descriptor
refers to is a parameter. A `fork` copies the table, which here is nothing but
using it twice.

A table lists what is open, the latest first, so that closing what was opened
gives back the very table that was there before, and not only one with the same
descriptors.

## Main definitions

* `Table`: A descriptor table.
* `lookup`: What is open at a number.
* `free`: The lowest free number.
* `push`: Opening at a free number.
* `insert`: Opening at the lowest free number.
* `close`, `dup2`: The calls of that name.
* `move`: The second followed by the first, to have a descriptor elsewhere.
* `map`: The same numbers, with something else open at them.
* `standard`: A table with nothing but 0, 1 and 2.

## Theorems

* `lookup_free`: The number to open at is free.
* `lookup_eq_some`: What is open is in the table.
* `lookup_push`, `lookup_close`, `lookup_dup2`, `lookup_move`: What is open
  afterwards.
* `lookup_push_eq_none`: What is free after an opening was free before.
* `push_ne`: A table with something open on top is another one.
* `close_push`: Closing what was opened restores the table.
* `close_push_of_ne`: Closing something else leaves it open.
* `close_of_free`: Closing what is not open changes nothing.
-/

namespace Descriptors

variable {δ : Type*}

/-- The open descriptors, each number at most once. -/
structure Table (δ : Type*) where
  entries : List (Nat × δ)
  nodup : (entries.map Prod.fst).Nodup
  deriving DecidableEq

namespace Table

theorem ext_entries {t u : Table δ} (h : t.entries = u.entries) : t = u := by
  cases t
  cases u
  simp only at h
  subst h
  rfl

/-- What is open at a number. -/
def lookup (t : Table δ) (n : Nat) : Option δ := t.entries.lookup n

/-- The lowest number at which nothing is open. -/
def free (t : Table δ) : Nat :=
  ((List.range (t.entries.length + 1)).find? fun n => (t.lookup n).isNone).getD 0

theorem lookup_eq_none {t : Table δ} {n : Nat} :
    t.lookup n = none ↔ n ∉ t.entries.map Prod.fst := by
  rw [lookup, List.lookup_eq_none_iff, List.mem_map]
  constructor
  · rintro h ⟨e, he, rfl⟩
    exact bne_iff_ne.mp (h e he) rfl
  · intro h e he
    exact bne_iff_ne.mpr fun hn => h ⟨e, he, hn.symm⟩

theorem lookup_eq_some {t : Table δ} {n : Nat} {d : δ} :
    t.lookup n = some d ↔ (n, d) ∈ t.entries := by
  rcases t with ⟨entries, hnodup⟩
  simp only [lookup]
  induction entries with
  | nil => simp only [List.lookup_nil, reduceCtorEq, List.not_mem_nil]
  | cons e es ih =>
      rcases e with ⟨m, c⟩
      rw [List.map_cons, List.nodup_cons] at hnodup
      rw [List.lookup_cons, List.mem_cons, Prod.mk.injEq]
      by_cases hnm : n = m
      · subst hnm
        have hout : (n, d) ∉ es := fun hmem => hnodup.1 (List.mem_map.mpr ⟨_, hmem, rfl⟩)
        simp only [beq_self_eq_true, Option.some.injEq, true_and, hout, or_false, eq_comm]
      · rw [beq_false_of_ne hnm]
        simp only [hnm, false_and, false_or]
        exact ih hnodup.2

/-- More numbers than descriptors cannot all be in use. -/
theorem exists_free (t : Table δ) : ∃ n ∈ List.range (t.entries.length + 1), t.lookup n = none := by
  by_contra h
  have hsub : List.range (t.entries.length + 1) ⊆ t.entries.map Prod.fst := by
    intro n hn
    by_contra hout
    exact h ⟨n, hn, lookup_eq_none.mpr hout⟩
  have hlen := (List.subperm_of_subset List.nodup_range hsub).length_le
  rw [List.length_range, List.length_map] at hlen
  omega

theorem lookup_free (t : Table δ) : t.lookup t.free = none := by
  rcases t.exists_free with ⟨n, hn, hnone⟩
  rw [free]
  cases hfind : (List.range (t.entries.length + 1)).find? fun n => (t.lookup n).isNone with
  | none =>
      have hall := List.find?_eq_none.mp hfind n hn
      rw [hnone] at hall
      exact absurd rfl hall
  | some m =>
      have hm : (t.lookup m).isNone = true := by simpa using List.find?_some hfind
      exact Option.isNone_iff_eq_none.mp hm

/-- Open at a free number. -/
def push (t : Table δ) (n : Nat) (d : δ) (h : t.lookup n = none) : Table δ where
  entries := (n, d) :: t.entries
  nodup := List.nodup_cons.mpr ⟨lookup_eq_none.mp h, t.nodup⟩

@[simp] theorem entries_push {t : Table δ} {n : Nat} {d : δ} (h : t.lookup n = none) :
    (t.push n d h).entries = (n, d) :: t.entries := rfl

/-- Open at the lowest free number. -/
def insert (t : Table δ) (d : δ) : Table δ := t.push t.free d t.lookup_free

theorem lookup_push {t : Table δ} {n : Nat} {d : δ} (h : t.lookup n = none) (m : Nat) :
    (t.push n d h).lookup m = if m = n then some d else t.lookup m := by
  by_cases hm : m = n
  · rw [if_pos hm, lookup, push, hm, List.lookup_cons_self]
  · rw [if_neg hm, lookup, push, List.lookup_cons, beq_false_of_ne hm, lookup]

/-- What is free after an opening is another number that was free before. -/
theorem lookup_push_eq_none {t : Table δ} {n m : Nat} {d : δ} (h : t.lookup n = none) :
    (t.push n d h).lookup m = none ↔ m ≠ n ∧ t.lookup m = none := by
  rw [lookup_push]
  by_cases hm : m = n
  · rw [if_pos hm]
    exact iff_of_false (Option.some_ne_none d) fun h => h.1 hm
  · rw [if_neg hm, and_iff_right hm]

/-- Something open on top of a table makes it another one. -/
theorem push_ne {t u : Table δ} {n : Nat} {d : δ} (h : t.lookup n = none)
    (hu : u.lookup n = none) : t.push n d h ≠ u := by
  rintro rfl
  exact ((lookup_push_eq_none h).mp hu).1 rfl

/-- `close`; at a number that is not open it fails and changes nothing. -/
def close (t : Table δ) (n : Nat) : Table δ where
  entries := t.entries.filter fun e => e.1 ≠ n
  nodup := t.nodup.sublist (List.filter_sublist.map Prod.fst)

@[simp] theorem entries_close (t : Table δ) (n : Nat) :
    (t.close n).entries = t.entries.filter fun e => e.1 ≠ n := rfl

theorem lookup_close (t : Table δ) (n m : Nat) :
    (t.close n).lookup m = if m = n then none else t.lookup m := by
  rw [lookup, entries_close, lookup]
  induction t.entries with
  | nil => rw [List.filter_nil, List.lookup_nil, ite_self]
  | cons e es ih =>
      by_cases he : e.1 = n
      · rw [List.filter_cons_of_neg (by simpa using he), ih]
        by_cases hm : m = n
        · rw [if_pos hm, if_pos hm]
        · rw [if_neg hm, if_neg hm, List.lookup_cons, beq_false_of_ne (he.symm ▸ hm)]
      · rw [List.filter_cons_of_pos (by simpa using he), List.lookup_cons, List.lookup_cons, ih]
        by_cases hm : m = e.1
        · have hmn : m ≠ n := fun hn => he (hm.symm.trans hn)
          rw [beq_iff_eq.mpr hm, if_neg hmn, if_neg hmn]
        · rw [beq_false_of_ne hm]

/-- Closing what is not open changes nothing. -/
theorem close_of_free {t : Table δ} {n : Nat} (h : t.lookup n = none) : t.close n = t := by
  refine ext_entries (List.filter_eq_self.mpr fun e he => ?_)
  refine decide_eq_true fun hn => ?_
  exact lookup_eq_none.mp h (List.mem_map.mpr ⟨e, he, hn⟩)

/-- Closing what was opened restores the table. -/
theorem close_push {t : Table δ} {n : Nat} {d : δ} (h : t.lookup n = none) :
    (t.push n d h).close n = t := by
  refine Eq.trans (ext_entries ?_) (close_of_free h)
  rw [entries_close, entries_push, List.filter_cons_of_neg (by simp), entries_close]

theorem lookup_close_of_free {t : Table δ} {n : Nat} (h : t.lookup n = none) (m : Nat) :
    (t.close m).lookup n = none := by
  rw [lookup_close, h, ite_self]

/-- Closing something else leaves it open. -/
theorem close_push_of_ne {t : Table δ} {n m : Nat} {d : δ} (h : t.lookup n = none) (hm : n ≠ m) :
    (t.push n d h).close m = (t.close m).push n d (lookup_close_of_free h m) := by
  refine ext_entries ?_
  rw [entries_close, entries_push, List.filter_cons_of_pos (by simpa using hm), entries_push,
    entries_close]

/-- `dup2`; from a number that is not open it fails and changes nothing. -/
def dup2 (t : Table δ) (old new : Nat) : Table δ :=
  match t.lookup old with
  | none => t
  | some d =>
      if old = new then t
      else (t.close new).push new d (by rw [lookup_close, if_pos rfl])

theorem lookup_dup2 {t : Table δ} {old : Nat} {d : δ} (h : t.lookup old = some d) (new m : Nat) :
    (t.dup2 old new).lookup m = if m = new then some d else t.lookup m := by
  simp only [dup2, h]
  by_cases hne : old = new
  · rw [if_pos hne]
    by_cases hm : m = new
    · rw [if_pos hm, hm, ← hne, h]
    · rw [if_neg hm]
  · rw [if_neg hne, lookup_push, lookup_close]
    by_cases hm : m = new
    · rw [if_pos hm, if_pos hm]
    · rw [if_neg hm, if_neg hm, if_neg hm]

/-- `dup2`, and then `close` of the number it was made from. -/
def move (t : Table δ) (old new : Nat) : Table δ := (t.dup2 old new).close old

theorem lookup_move {t : Table δ} {old : Nat} {d : δ} (h : t.lookup old = some d) (new m : Nat) :
    (t.move old new).lookup m =
      if m = old then none else if m = new then some d else t.lookup m := by
  rw [move, lookup_close, lookup_dup2 h]

/-- The same numbers, with something else open at them. -/
def map {γ : Type*} (f : δ → γ) (t : Table δ) : Table γ where
  entries := t.entries.map fun e => (e.1, f e.2)
  nodup := by
    rw [List.map_map]
    exact t.nodup

theorem lookup_map {γ : Type*} (f : δ → γ) (t : Table δ) (n : Nat) :
    (t.map f).lookup n = (t.lookup n).map f := by
  change List.lookup n (t.entries.map fun e => (e.1, f e.2)) = (t.entries.lookup n).map f
  induction t.entries with
  | nil => rfl
  | cons e es ih =>
      rw [List.map_cons, List.lookup_cons, List.lookup_cons, ih]
      cases n == e.1 with
      | true => rfl
      | false => rfl

end Table

theorem standard_nodup : ([(0, 0), (1, 1), (2, 2)].map (Prod.fst (α := Nat) (β := Nat))).Nodup := by
  decide

/-- Standard input, output and error. -/
def standard : Table Nat := ⟨[(0, 0), (1, 1), (2, 2)], standard_nodup⟩

end Descriptors
