import Isolyx.Core.Rootfs
import Mathlib.Data.List.Basic

/-!
# Confidentiality of Collected Output

Whether what the engine collects for a job can depend on the host outside of
the directory the job ran in. It depends on nothing else as long as the
engine's walk of the two paths stays inside, that is, never looks up a name
that lies neither below the directory nor on the way to it (`StaysInside`).
Whether it does is decided by what the program left: in a host with nothing
around the directory, such a walk misses the name and stops there.

A program can make it leave by putting a link in the place of its output. If
names only lead on from where the walk left, a host that has them sends the
engine to a file of its own (`differs_of_leaves`). A walk that has left and
meets a `.` or a `..` after that may be bound to end at a directory, which
reads as nothing in every host; this is why `ClimbsAgain` is set apart.

## Main definitions

* `Inside`: Below the directory, or on the way to it.
* `Leaves`: Where a walk leaves, and what is left of the path there.
* `StaysInside`: Neither of the two walks leaves.
* `ClimbsAgain`: One of them leaves, and not by names only.
* `Confidential`: The output is the same in every host.

## Theorems

* `readAndDelete_inside`: A walk that stays inside reads and unlinks alike in
  every host.
* `differs_of_leaves`: One that leaves by names does not.
* `confidential_iff_inside`: Staying inside is enough, and it is needed unless
  a walk climbs again.
* `passwd_leaks`: A link to `/etc/passwd` leaks it.
-/

namespace Isolyx

namespace Rootfs

open PathWalk (Comp Route walk)

variable {base : Loc} {t : Tree} {path : Path} {p : Loc} {rest : Path}

/-- Below the directory, or on the way to it. -/
def Inside (base p : Loc) : Prop := base <+: p ∨ p <+: base

/-- A host with nothing outside of the directory. -/
def bare (t : Tree) : Host := ⟨fun _ => none, t⟩

/-- The walk of a path leaves at a location, with a rest still to go. -/
def Leaves (base : Loc) (t : Tree) (path : Path) (p : Loc) (rest : Path) : Prop :=
  walk ((bare t).lookup base) maxSymlinks [] path = .missing p rest ∧ ¬ Inside base p

/-- The contents of the directory after a file was collected and its walk
    stayed inside. -/
def afterCollecting (base : Loc) (t : Tree) (path : Path) : Tree :=
  (readAndDelete base (bare t) path).2.tree

/-- Neither the walk to the output nor, after it was collected, the walk to the
    error output leaves. -/
def StaysInside (base : Loc) (id : Nat) (t : Tree) : Prop :=
  (∀ p rest, ¬ Leaves base t (hostPath base (outPath id)) p rest) ∧
    ∀ p rest, ¬ Leaves base (afterCollecting base t (hostPath base (outPath id)))
      (hostPath base (errPath id)) p rest

/-- One of the two walks leaves, and a `.` or a `..` is still to come. -/
def ClimbsAgain (base : Loc) (id : Nat) (t : Tree) : Prop :=
  (∃ p rest, Leaves base t (hostPath base (outPath id)) p rest ∧
    ∀ ns : List Name, rest ≠ ns.map .name) ∨
  ∃ p rest, Leaves base (afterCollecting base t (hostPath base (outPath id)))
    (hostPath base (errPath id)) p rest ∧ ∀ ns : List Name, rest ≠ ns.map .name

/-- The output of a program is the same in every host of the directory. -/
def Confidential (base : Loc) (id : Nat) (t : Tree) (prog : List FileOp) : Prop :=
  ∀ outside₁ outside₂,
    isolateAndRun base id outside₁ t prog = isolateAndRun base id outside₂ t prog

/-! ## Locations -/

theorem inside_closed (base : Loc) : PathWalk.Closed {p | Inside base p} where
  root := Or.inr List.nil_prefix
  parent := by
    intro p hp
    have hdrop : p.dropLast <+: p := List.dropLast_prefix p
    -- The parent of a location below the directory is below it or on the way to it.
    rcases hp with hbelow | habove
    · exact List.prefix_or_prefix_of_prefix hbelow hdrop
    · exact Or.inr (hdrop.trans habove)

/-- What lies below a location outside is outside. -/
theorem not_inside_append (h : ¬ Inside base p) (q : Loc) : ¬ Inside base (p ++ q) := by
  intro hin
  have hpre : p <+: p ++ q := List.prefix_append p q
  rcases hin with hbelow | habove
  · exact h (List.prefix_or_prefix_of_prefix hbelow hpre)
  · exact h (Or.inr (hpre.trans habove))

theorem lookup_outside (h : Host) (hp : ¬ Inside base p) : h.lookup base p = h.outside p := by
  unfold Host.lookup
  rw [if_neg fun hbelow => hp (Or.inl hbelow), if_neg fun habove => hp (Or.inr habove)]

theorem lookup_inside (outside : Loc → Option Node) (hp : Inside base p) :
    Host.lookup base ⟨outside, t⟩ p = (bare t).lookup base p := by
  unfold Host.lookup
  by_cases hbelow : base <+: p
  · rw [if_pos hbelow, if_pos hbelow]
    rfl
  · rw [if_neg hbelow, if_neg hbelow, if_pos (hp.resolve_left hbelow),
      if_pos (hp.resolve_left hbelow)]

theorem bare_outside (hp : ¬ Inside base p) : (bare t).lookup base p = none :=
  lookup_outside (bare t) hp

/-- Only what is inside is there in a bare host. -/
theorem inside_of_bare {x : Node} (h : (bare t).lookup base p = some x) : Inside base p := by
  by_contra hout
  rw [bare_outside hout] at h
  exact absurd h (by simp only [reduceCtorEq, not_false_eq_true])

/-! ## Walks that stay inside -/

theorem walk_inside (outside : Loc → Option Node) (h : ∀ p rest, ¬ Leaves base t path p rest) :
    walk (Host.lookup base ⟨outside, t⟩) maxSymlinks [] path =
      walk ((bare t).lookup base) maxSymlinks [] path := by
  -- All hosts agree inside, and a walk that misses nothing outside sees no more.
  refine PathWalk.walk_confined (inside_closed base) (fun p hp => lookup_inside outside hp)
    (fun p hp => bare_outside hp) (inside_closed base).root fun p rest hmiss => ?_
  by_contra hout
  exact h p rest ⟨hmiss, hout⟩

theorem walk_found_inside (h : walk ((bare t).lookup base) maxSymlinks [] path = .found p) :
    Inside base p :=
  PathWalk.walk_found_mem (inside_closed base) (fun _ hq => bare_outside hq)
    (inside_closed base).root h

/-- A walk of a part of a path stays inside if the whole does. -/
theorem not_leaves_prefix {more : Path} (h : ∀ p rest, ¬ Leaves base t (path ++ more) p rest) :
    ∀ p rest, ¬ Leaves base t path p rest := by
  rintro p rest ⟨hmiss, hout⟩
  exact h p _ ⟨PathWalk.walk_append_missing hmiss, hout⟩

theorem entry_eq_some {f : Loc → Option Node} (h : entry f path = some p) :
    ∃ front n d, path = front ++ [.name n] ∧ walk f maxSymlinks [] front = .found d ∧
      f d = some .dir ∧ p = d ++ [n] := by
  unfold entry at h
  split at h
  · rename_i n hlast
    rcases List.getLast?_eq_some_iff.mp hlast with ⟨front, rfl⟩
    rw [List.dropLast_concat] at h
    split at h
    · rename_i d hwalk
      rw [Option.ite_none_right_eq_some, Option.some.injEq] at h
      exact ⟨front, n, d, rfl, hwalk, h.1, h.2.symm⟩
    · exact absurd h (by simp only [reduceCtorEq, not_false_eq_true])
  · exact absurd h (by simp only [reduceCtorEq, not_false_eq_true])

/-- The entry that a path names is inside if its walk stays there. -/
theorem entry_inside (h : ∀ p rest, ¬ Leaves base t path p rest)
    (hentry : entry ((bare t).lookup base) path = some p) : Inside base p := by
  rcases entry_eq_some hentry with ⟨front, n, d, rfl, hwalk, hdir, rfl⟩
  rcases PathWalk.walk_append_found (b := [.name n]) hwalk with ⟨k, hlast⟩
  by_contra hout
  -- outside, the name would be missing, and the walk would leave
  rw [PathWalk.walk_missing hdir (bare_outside hout)] at hlast
  exact h _ _ ⟨hlast, hout⟩

theorem entry_eq (outside : Loc → Option Node) (h : ∀ p rest, ¬ Leaves base t path p rest) :
    entry (Host.lookup base ⟨outside, t⟩) path = entry ((bare t).lookup base) path := by
  unfold entry
  cases hlast : path.getLast? with
  | none => rfl
  | some c =>
      cases c with
      | name n =>
          rcases List.getLast?_eq_some_iff.mp hlast with ⟨front, rfl⟩
          have hfront := not_leaves_prefix h
          simp only [List.dropLast_concat, walk_inside outside hfront]
          cases hwalk : walk ((bare t).lookup base) maxSymlinks [] front with
          | found d => simp only [lookup_inside outside (walk_found_inside hwalk)]
          | _ => rfl
      | _ => rfl

/-- Unlinking a path whose walk stays inside touches the directory only, and
    alike in every host. -/
theorem unlink_inside (outside : Loc → Option Node) (h : ∀ p rest, ¬ Leaves base t path p rest) :
    Host.unlink base ⟨outside, t⟩ path = ⟨outside, ((bare t).unlink base path).tree⟩ := by
  unfold Host.unlink
  rw [entry_eq outside h]
  cases hentry : entry ((bare t).lookup base) path with
  | none => rfl
  | some p =>
      have hin := entry_inside h hentry
      simp only [lookup_inside outside hin]
      -- What is unlinked is no directory, so it is not on the way down to this one.
      have hremove : (bare t).lookup base p ≠ some .dir →
          Host.remove base ⟨outside, t⟩ p = ⟨outside, ((bare t).remove base p).tree⟩ := by
        intro hdir
        have hbelow : base <+: p := by
          by_contra hnot
          refine hdir ?_
          rw [Host.lookup, if_neg hnot, if_pos (hin.resolve_left hnot)]
        simp only [Host.remove, if_pos hbelow, bare]
      cases hnode : (bare t).lookup base p with
      | none => rfl
      | some x =>
          cases x with
          | dir => rfl
          | file b => exact hremove (by simp only [hnode, ne_eq, reduceCtorEq, Option.some.injEq,
              not_false_eq_true])
          | link target => exact hremove (by simp only [hnode, ne_eq, reduceCtorEq,
              Option.some.injEq, not_false_eq_true])

/-- A walk that stays inside reads and unlinks alike in every host. -/
theorem readAndDelete_inside (outside : Loc → Option Node)
    (h : ∀ p rest, ¬ Leaves base t path p rest) :
    readAndDelete base ⟨outside, t⟩ path =
      ((readAndDelete base (bare t) path).1, ⟨outside, afterCollecting base t path⟩) := by
  unfold afterCollecting readAndDelete
  rw [walk_inside outside h]
  cases hwalk : walk ((bare t).lookup base) maxSymlinks [] path with
  | found p => simp only [lookup_inside outside (walk_found_inside hwalk), unlink_inside outside h]
  | _ => rfl

/-- What is collected when neither walk leaves. -/
theorem collect_inside (outside : Loc → Option Node) {id : Nat} (h : StaysInside base id t) :
    collect base id ⟨outside, t⟩ =
      ((readAndDelete base (bare t) (hostPath base (outPath id))).1,
        (readAndDelete base (bare (afterCollecting base t (hostPath base (outPath id))))
          (hostPath base (errPath id))).1) := by
  simp only [collect, readAndDelete_inside outside h.1, readAndDelete_inside outside h.2]

/-! ## Walks that leave -/

/-- A host that has a file where a walk that left would end by names. -/
def planted (p : Loc) (ns : List Name) : Loc → Option Node := fun q =>
  if q = p ++ ns then some (.file [1])
  else if p <+: q ∧ q <+: p ++ ns then some .dir
  else none

theorem planted_dir (p : Loc) {ns : List Name} {i : Nat} (hi : i < ns.length) :
    planted p ns (p ++ ns.take i) = some .dir := by
  have hne : p ++ ns.take i ≠ p ++ ns := by
    intro heq
    have hlen := congrArg List.length heq
    rw [List.length_append, List.length_append, List.length_take] at hlen
    omega
  have hpre : p ++ ns.take i <+: p ++ ns :=
    (List.prefix_append_right_inj p).mpr (List.take_prefix i ns)
  rw [planted, if_neg hne, if_pos ⟨List.prefix_append p _, hpre⟩]

theorem planted_file (p : Loc) (ns : List Name) : planted p ns (p ++ ns) = some (.file [1]) :=
  if_pos rfl

/-- A walk that leaves by names ends at the planted file. -/
theorem walk_planted {ns : List Name} (h : Leaves base t path p (ns.map .name)) :
    walk (Host.lookup base ⟨planted p ns, t⟩) maxSymlinks [] path = .found (p ++ ns) := by
  have hbelow : ∀ q, Host.lookup base ⟨planted p ns, t⟩ (p ++ q) = planted p ns (p ++ q) :=
    fun q => lookup_outside _ (not_inside_append h.2 q)
  -- The planted host has the name the walk missed.
  have hfirst : ∃ x : Node, Host.lookup base ⟨planted p ns, t⟩ p = some x ∧ x.solid := by
    have hat := hbelow []
    rw [List.append_nil] at hat
    rw [hat]
    cases ns with
    | nil => exact ⟨.file [1], by rw [← planted_file p [], List.append_nil], trivial⟩
    | cons n ns =>
        have hpos : 0 < (n :: ns).length := Nat.succ_pos _
        have hdir := planted_dir p hpos
        rw [List.take_zero, List.append_nil] at hdir
        exact ⟨.dir, hdir, trivial⟩
  rcases hfirst with ⟨x, hx, hsolid⟩
  -- And it agrees with the bare one wherever that has anything.
  have hagree : ∀ q y, (bare t).lookup base q = some y →
      Host.lookup base ⟨planted p ns, t⟩ q = some y := by
    intro q y hq
    rw [lookup_inside _ (inside_of_bare hq)]
    exact hq
  rcases PathWalk.walk_through hagree hx hsolid h.1 with ⟨k, hwalk⟩
  rw [hwalk]
  refine PathWalk.walk_names (fun i hi => ?_) (?_ : _ = some (.file [1])) ?_
  · rw [hbelow]
    exact planted_dir p hi
  · rw [hbelow]
    exact planted_file p ns
  · trivial

/-- A walk that leaves by names reads what the host has there, and nothing in
    a bare host. -/
theorem differs_of_leaves {ns : List Name} (h : Leaves base t path p (ns.map .name)) :
    (readAndDelete base ⟨planted p ns, t⟩ path).1 = [1] ∧
      (readAndDelete base (bare t) path).1 = [] := by
  have hout := not_inside_append h.2 ns
  constructor
  · simp only [readAndDelete, walk_planted h, lookup_outside ⟨planted p ns, t⟩ hout, planted_file]
  · simp only [readAndDelete, h.1]

/-! ## Programs -/

/-- For every directory, every program and every job: if neither walk leaves
    what the program left behind, the output is the same in every host; and if
    it is the same in every host, then neither walk leaves, or one that does
    has a `.` or a `..` still to come. -/
theorem confidential_iff_inside (base : Loc) (id : Nat) (t : Tree) (prog : List FileOp) :
    (StaysInside base id (sandboxed id t prog) → Confidential base id t prog) ∧
      (Confidential base id t prog → StaysInside base id (sandboxed id t prog) ∨
        ClimbsAgain base id (sandboxed id t prog)) := by
  constructor
  · intro h outside₁ outside₂
    rw [isolateAndRun, isolateAndRun, collect_inside outside₁ h, collect_inside outside₂ h]
  · intro hsame
    by_contra hneither
    rcases not_or.mp hneither with ⟨hleaves, hclimbs⟩
    rcases not_or.mp hclimbs with ⟨hout, herr⟩
    -- a walk that leaves does so by names, so a host with a file there shows it
    have hstays : ∀ p rest,
        ¬ Leaves base (sandboxed id t prog) (hostPath base (outPath id)) p rest := by
      intro p rest hleave
      by_cases hnames : ∃ ns : List Name, rest = ns.map .name
      · rcases hnames with ⟨ns, rfl⟩
        have hdiffer := differs_of_leaves hleave
        have hfirst := congrArg Prod.fst (hsame (planted p ns) fun _ => none)
        exact absurd ((hdiffer.1.symm.trans hfirst).trans hdiffer.2) (List.cons_ne_nil 1 [])
      · exact hout ⟨p, rest, hleave, not_exists.mp hnames⟩
    refine hleaves ⟨hstays, fun p rest hleave => ?_⟩
    by_cases hnames : ∃ ns : List Name, rest = ns.map .name
    · rcases hnames with ⟨ns, rfl⟩
      have hdiffer := differs_of_leaves hleave
      have hsecond := congrArg Prod.snd (hsame (planted p ns) fun _ => none)
      simp only [isolateAndRun, collect, readAndDelete_inside _ hstays] at hsecond
      exact absurd ((hdiffer.1.symm.trans hsecond).trans hdiffer.2) (List.cons_ne_nil 1 [])
    · exact herr ⟨p, rest, hleave, not_exists.mp hnames⟩

/-- Replace the output by a link to `/etc/passwd`. -/
def linkToPasswd : List FileOp :=
  [.unlink (outPath 1),
    .symlink ⟨true, [.name (ascii "etc"), .name (ascii "passwd")]⟩ (outPath 1)]

/-- A host whose `/etc/passwd` holds two bytes. -/
def withPasswd : Loc → Option Node := fun p =>
  if p = [ascii "etc"] then some .dir
  else if p = [ascii "etc", ascii "passwd"] then some (.file (ascii "x:"))
  else none

/-- A link to `/etc/passwd` leaks it. -/
theorem passwd_leaks : ¬ ∀ (base : Loc) (id : Nat) (t : Tree) (prog : List FileOp),
    Confidential base id t prog := by
  intro hall
  have hleaks : isolateAndRun [ascii "srv", ascii "rootfs_base"] 1 withPasswd
      [([ascii "tmp"], .dir)] linkToPasswd = (ascii "x:", []) := by decide +kernel
  have hblank : isolateAndRun [ascii "srv", ascii "rootfs_base"] 1 (fun _ => none)
      [([ascii "tmp"], .dir)] linkToPasswd = ([], []) := by decide +kernel
  -- One program, two hosts, two outputs.
  have hsame := hall [ascii "srv", ascii "rootfs_base"] 1 [([ascii "tmp"], .dir)] linkToPasswd
    withPasswd fun _ => none
  rw [hleaks, hblank] at hsame
  exact absurd hsame (by decide)

end Rootfs

end Isolyx
