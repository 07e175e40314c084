import Isolyx.Core.Cgroup
import Isolyx.Library.Split

/-!
# The Base of the Cgroups

A membership line of the unified hierarchy has its two colons at the beginning,
and the path behind them may have more. The constructor looks for the last one.

As long as no component has a colon, that is the second, and the base is the
parent of the engine's own cgroup. Otherwise everything up to the last colon is
lost, and with it the separator in front of the path, unless the component ends
in that colon. Then the base is never the one it should be
(`base_iff`), and `/a:b` already leads out of the mount (`base_outside`).

## Main definitions

* `Name`: A component of a cgroup's path.
* `membershipLine`: The line of a process in a cgroup.
* `parentDir`: The directory with that cgroup in it.
* `Below`: A directory of the mount.

## Theorems

* `absolute_eq`: A path is a directory, a separator and a last component.
* `getBaseCgroupPath_line`: The base, by what follows the last colon.
* `base_of_plain`: The base where no component has a colon.
* `base_ne_of_colon`: The base where one has.
* `base_iff`: When the base is the parent directory.
-/

namespace Isolyx

namespace Cgroup

open LexicalPath

/-- A component of a cgroup's path. -/
structure Name where
  bytes : Bytes
  nonempty : bytes ≠ []
  notDot : bytes ≠ ascii "."
  notDotDot : bytes ≠ ascii ".."
  noSlash : slash ∉ bytes
  noNewline : newline ∉ bytes

/-- The names of a path, with a slash before each. -/
def textOf (names : List Name) : Bytes := join slash (names.map Name.bytes)

/-- An absolute path. -/
def absolute (names : List Name) : Bytes := if names.isEmpty then [slash] else textOf names

/-- The line of a process in the cgroup of that path. -/
def membershipLine (names : List Name) : Bytes := ascii "0::" ++ absolute names

/-- The directory with that cgroup in it; the root is taken for itself. -/
def parentDir (names : List Name) : Bytes := mountPoint ++ textOf names.dropLast

/-- The mount point, or a directory below it. -/
def Below (dir : Bytes) : Prop := ∃ names : List Name, dir = mountPoint ++ textOf names

/-- A path is the path of a directory, a separator and a last component. -/
theorem absolute_eq (names : List Name) :
    ∃ t, absolute names = textOf names.dropLast ++ slash :: t ∧ slash ∉ t := by
  cases names using List.reverseRecOn with
  | nil => exact ⟨[], rfl, List.not_mem_nil⟩
  | append_singleton names n =>
      refine ⟨n.bytes, ?_, n.noSlash⟩
      rw [absolute, if_neg (by simp), List.dropLast_concat, textOf, textOf, List.map_append, join,
        join, List.flatMap_append, List.map_singleton, List.flatMap_singleton]

theorem endsInName_mount (names : List Name) : EndsInName slash (mountPoint ++ textOf names) := by
  refine endsInName_join ⟨ascii "/sys/fs/cgrou", 0x70, by decide, by decide⟩ ?_
  intro t ht
  rcases List.mem_map.mp ht with ⟨n, -, rfl⟩
  exact ⟨n.nonempty, n.noSlash⟩

theorem mem_absolute {names : List Name} {b : UInt8} (h : b ∈ absolute names) :
    b = slash ∨ ∃ n ∈ names, b ∈ n.bytes := by
  rw [absolute] at h
  split_ifs at h
  · exact .inl (List.mem_singleton.mp h)
  · simp only [textOf, join, List.flatMap_map, List.mem_flatMap, List.mem_cons] at h
    rcases h with ⟨n, hn, rfl | hb⟩
    · exact .inl rfl
    · exact .inr ⟨n, hn, hb⟩

theorem mem_absolute_of_mem {names : List Name} {n : Name} {b : UInt8} (hn : n ∈ names)
    (hb : b ∈ n.bytes) : b ∈ absolute names := by
  rw [absolute, if_neg fun hempty => List.ne_nil_of_mem hn (List.isEmpty_iff.mp hempty)]
  simp only [textOf, join, List.flatMap_map, List.mem_flatMap, List.mem_cons]
  exact ⟨n, hn, .inr hb⟩

theorem newline_not_mem (names : List Name) : newline ∉ membershipLine names := by
  intro h
  rcases List.mem_append.mp h with h | h
  · exact absurd h (by decide)
  · rcases mem_absolute h with h | ⟨n, -, h⟩
    · exact absurd h (by decide)
    · exact n.noNewline h

/-- The base, by what follows the last colon of the line. -/
theorem getBaseCgroupPath_line (names : List Name) (rest : Bytes) :
    getBaseCgroupPath (membershipLine names ++ newline :: rest)
      = parent slash (mountPoint ++ afterLast colon (membershipLine names)) := by
  have hline : (membershipLine names ++ newline :: rest).takeWhile (· != newline)
      = membershipLine names := by
    have hall : ∀ b ∈ membershipLine names, (b != newline) = true := by
      intro b hb
      rw [bne_iff_ne]
      rintro rfl
      exact newline_not_mem names hb
    rw [List.takeWhile_append_of_pos hall, List.takeWhile_cons_of_neg (by decide), List.append_nil]
  have hcolon : (membershipLine names).contains colon = true :=
    List.contains_iff_mem.mpr (List.mem_append_left _ (by decide))
  have hfile : (membershipLine names ++ newline :: rest).isEmpty = false := rfl
  simp only [getBaseCgroupPath, hline, hcolon, hfile, Bool.not_false, Bool.and_self, if_true]

/-- The second colon of a line is the last one if the path has none. -/
theorem membershipLine_eq (names : List Name) :
    membershipLine names = ascii "0:" ++ colon :: absolute names := rfl

theorem base_of_plain {names : List Name} (h : ∀ n ∈ names, colon ∉ n.bytes) (rest : Bytes) :
    getBaseCgroupPath (membershipLine names ++ newline :: rest) = parentDir names := by
  have hplain : colon ∉ absolute names := by
    intro hmem
    rcases mem_absolute hmem with heq | ⟨n, hn, hb⟩
    · exact absurd heq (by decide)
    · exact h n hn hb
  rcases absolute_eq names with ⟨t, heq, ht⟩
  rw [getBaseCgroupPath_line, membershipLine_eq, afterLast_append hplain, heq, ← List.append_assoc,
    parent_append (endsInName_mount _) ht, parentDir]

theorem base_ne_of_colon {names : List Name} (h : ¬ ∀ n ∈ names, colon ∉ n.bytes) (rest : Bytes) :
    getBaseCgroupPath (membershipLine names ++ newline :: rest) ≠ parentDir names := by
  push Not at h
  rcases h with ⟨n, hn, hb⟩
  rcases Split.exists_last (mem_absolute_of_mem hn hb) with ⟨u, y, hu, hy⟩
  have hlast : afterLast colon (membershipLine names) = y := by
    rw [membershipLine, hu, ← List.append_assoc]
    exact afterLast_append hy
  rcases absolute_eq names with ⟨t, heq, ht⟩
  rw [getBaseCgroupPath_line, hlast, parentDir]
  rcases List.append_eq_append_iff.mp (hu.symm.trans heq) with ⟨v, hq, hv⟩ | ⟨v, -, hv⟩
  · -- The colon is in the directory, and what follows it there is left of that.
    cases v with
    | nil => exact absurd (List.cons.inj hv).1 (by decide)
    | cons b v =>
        rw [List.cons_append, List.cons.injEq] at hv
        rcases hv with ⟨rfl, rfl⟩
        have hends : EndsInName slash (mountPoint ++ v) := by
          by_cases hne : v = []
          · rw [hne]
            exact endsInName_mount []
          · have hdir := endsInName_mount names.dropLast
            rw [hq, List.append_cons, ← List.append_assoc] at hdir
            exact hdir.of_append hne mountPoint
        rw [← List.append_assoc, parent_append hends ht, hq]
        intro hsame
        have hlen := congrArg List.length hsame
        simp only [List.length_append, List.length_cons] at hlen
        omega
  · -- It is in the last component, and what follows it there is glued to the mount point.
    have hplain : slash ∉ ascii "cgroup" ++ y := by
      intro hmem
      rcases List.mem_append.mp hmem with hmem | hmem
      · exact absurd hmem (by decide)
      · cases v with
        | nil => exact absurd (List.cons.inj hv).1 (by decide)
        | cons b v =>
            rw [List.cons_append, List.cons.injEq] at hv
            exact ht (hv.2 ▸ List.mem_append_right v (List.mem_cons_of_mem colon hmem))
    have hparent : parent slash (mountPoint ++ y) = ascii "/sys/fs" :=
      parent_append (s := ascii "/sys/fs") ⟨ascii "/sys/f", 0x73, by decide, by decide⟩ hplain
    rw [hparent]
    intro hsame
    have hlen := congrArg List.length hsame
    rw [List.length_append, show (ascii "/sys/fs").length = 7 from rfl,
      show mountPoint.length = 14 from rfl] at hlen
    omega

/-- The base is the parent of the engine's cgroup, and a directory of the mount
    with it, exactly if no component of the path has a colon. -/
theorem base_iff (names : List Name) (rest : Bytes) :
    getBaseCgroupPath (membershipLine names ++ newline :: rest) = parentDir names ∧
        Below (getBaseCgroupPath (membershipLine names ++ newline :: rest)) ↔
      ∀ n ∈ names, colon ∉ n.bytes := by
  constructor
  · rintro ⟨heq, -⟩
    by_contra h
    exact base_ne_of_colon h rest heq
  · intro h
    have hbase := base_of_plain h rest
    exact ⟨hbase, names.dropLast, hbase⟩

/-- `/a:b` makes the parent of the file system's mount point the base. -/
theorem base_outside : ∃ names : List Name,
    membershipLine names = ascii "0::/a:b" ∧
      getBaseCgroupPath (membershipLine names ++ [newline]) = ascii "/sys/fs" ∧
      ¬ (getBaseCgroupPath (membershipLine names ++ [newline]) = parentDir names ∧
        Below (getBaseCgroupPath (membershipLine names ++ [newline]))) := by
  refine ⟨[⟨ascii "a:b", by decide, by decide, by decide, by decide, by decide⟩], by decide,
    by decide, fun h => ?_⟩
  exact absurd h.1 (by decide)

end Cgroup

end Isolyx
