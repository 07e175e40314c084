import Mathlib.Data.Set.Basic
import Mathlib.Tactic.Common

/-!
# Walking Paths

How a kernel resolves a path in a file system that is known by lookups: from a
directory, component by component, up at a `..`, and off along its target at a
symbolic link. Links are followed in the last component too, and only so many
of them. A location is the list of names from the root; the parent of the root
is the root.

A walk ends at a location, or at a name that is not there, with what would
have been left of the path, or it fails, at something that is not a directory
or for too many links. The middle outcome says all that a walk can depend on
beyond the nodes it saw: whoever provides the missing name takes over from
there (`walk_through`), and nobody else can change the walk (`walk_confined`).

## Main definitions

* `Comp`: A component of a path.
* `Route`: A path.
* `Node`: A file, a directory or a symbolic link.
* `Outcome`: How a walk ends.
* `walk`: Resolving a path from a directory.

## Theorems

* `walk_induction`: Induction along a walk.
* `walk_append_missing`: A walk that misses a name misses it with more to go.
* `walk_append_found`: A walk that arrives goes on from there.
* `walk_confined`: A walk sees only what is known of a closed set of locations.
* `walk_through`: Providing the missing name, the walk goes on from it.
* `walk_names`: Names lead down through directories.
* `walk_two`: Two names lead where they say, if there is no link on the way.
-/

namespace PathWalk

/-- A component of a path: `.`, `..`, or a name. A trailing slash is a `.`. -/
inductive Comp (ν : Type) where
  | here
  | up
  | name (n : ν)
  deriving DecidableEq, Repr

/-- A path. -/
structure Route (ν : Type) where
  absolute : Bool
  comps : List (Comp ν)
  deriving DecidableEq, Repr

inductive Node (ν β : Type) where
  | file (content : β)
  | dir
  | link (target : Route ν)
  deriving DecidableEq, Repr

/-- How a walk ends. -/
inductive Outcome (ν : Type) where
  | found (loc : List ν)
  /-- The directory has no such name; the rest was still to come. -/
  | missing (loc : List ν) (rest : List (Comp ν))
  | failed
  deriving DecidableEq, Repr

section

variable {ν β : Type}

/-- Walk as far as the first link, and on by `follow`. -/
def walkFrom (follow : List ν → List (Comp ν) → Outcome ν) (f : List ν → Option (Node ν β)) :
    List ν → List (Comp ν) → Outcome ν
  | cur, [] => .found cur
  | cur, c :: rest => match f cur with
      | some .dir => match c with
          | .here => walkFrom follow f cur rest
          | .up => walkFrom follow f cur.dropLast rest
          | .name n => match f (cur ++ [n]) with
              | none => .missing (cur ++ [n]) rest
              | some (.link t) => follow (if t.absolute then [] else cur) (t.comps ++ rest)
              | some .dir => walkFrom follow f (cur ++ [n]) rest
              | some (.file _) => walkFrom follow f (cur ++ [n]) rest
      | _ => .failed

/-- Resolve a path from a directory, following at most `k` links. -/
def walk (f : List ν → Option (Node ν β)) : Nat → List ν → List (Comp ν) → Outcome ν
  | 0 => walkFrom (fun _ _ => .failed) f
  | k + 1 => walkFrom (walk f k) f

/-- Not a symbolic link. -/
def Node.solid : Node ν β → Prop
  | link _ => False
  | file _ | dir => True

variable {f g : List ν → Option (Node ν β)} {k : Nat} {cur : List ν} {n : ν}
  {c : Comp ν} {rest : List (Comp ν)}

/-! ## One component -/

@[simp]
theorem walk_nil : walk f k cur [] = .found cur := by
  cases k <;> rfl

theorem walk_notDir (h : f cur ≠ some .dir) : walk f k cur (c :: rest) = .failed := by
  have hmatch : ∀ follow, walkFrom follow f cur (c :: rest) = .failed := by
    intro follow
    cases hc : f cur with
    | none => simp only [walkFrom, hc]
    | some node =>
        cases node with
        | dir => exact absurd hc h
        | _ => simp only [walkFrom, hc]
  cases k <;> exact hmatch _

theorem walk_here (h : f cur = some .dir) : walk f k cur (.here :: rest) = walk f k cur rest := by
  cases k <;> simp only [walk, walkFrom, h]

theorem walk_up (h : f cur = some .dir) :
    walk f k cur (.up :: rest) = walk f k cur.dropLast rest := by
  cases k <;> simp only [walk, walkFrom, h]

theorem walk_missing (h : f cur = some .dir) (hn : f (cur ++ [n]) = none) :
    walk f k cur (.name n :: rest) = .missing (cur ++ [n]) rest := by
  cases k <;> simp only [walk, walkFrom, h, hn]

theorem walk_enter (h : f cur = some .dir) {node : Node ν β} (hn : f (cur ++ [n]) = some node)
    (hsolid : node.solid) : walk f k cur (.name n :: rest) = walk f k (cur ++ [n]) rest := by
  cases node with
  | file content => cases k <;> simp only [walk, walkFrom, h, hn]
  | dir => cases k <;> simp only [walk, walkFrom, h, hn]
  | link t => exact absurd hsolid id

theorem walk_follow (h : f cur = some .dir) {t : Route ν} (hn : f (cur ++ [n]) = some (.link t)) :
    walk f (k + 1) cur (.name n :: rest) =
      walk f k (if t.absolute then [] else cur) (t.comps ++ rest) := by
  simp only [walk, walkFrom, h, hn]

theorem walk_limit (h : f cur = some .dir) {t : Route ν} (hn : f (cur ++ [n]) = some (.link t)) :
    walk f 0 cur (.name n :: rest) = .failed := by
  simp only [walk, walkFrom, h, hn]

/-! ## Whole walks -/

/-- Induction along a walk: a property of walks holds of all of them if each
    component passes it on. The number of links left is part of it. -/
theorem walk_induction {P : Nat → List ν → List (Comp ν) → Outcome ν → Prop}
    (nil : ∀ k cur, P k cur [] (.found cur))
    (notDir : ∀ k cur c rest, f cur ≠ some .dir → P k cur (c :: rest) .failed)
    (here : ∀ k cur rest o, f cur = some .dir → P k cur rest o → P k cur (.here :: rest) o)
    (up : ∀ k cur rest o, f cur = some .dir → P k cur.dropLast rest o → P k cur (.up :: rest) o)
    (missing : ∀ k cur n rest, f cur = some .dir → f (cur ++ [n]) = none →
      P k cur (.name n :: rest) (.missing (cur ++ [n]) rest))
    (enter : ∀ k cur n rest o node, f cur = some .dir → f (cur ++ [n]) = some node → node.solid →
      P k (cur ++ [n]) rest o → P k cur (.name n :: rest) o)
    (follow : ∀ k cur n rest o t, f cur = some .dir → f (cur ++ [n]) = some (.link t) →
      P k (if t.absolute then [] else cur) (t.comps ++ rest) o → P (k + 1) cur (.name n :: rest) o)
    (limit : ∀ cur n rest t, f cur = some .dir → f (cur ++ [n]) = some (.link t) →
      P 0 cur (.name n :: rest) .failed)
    (k : Nat) (cur : List ν) (comps : List (Comp ν)) : P k cur comps (walk f k cur comps) := by
  -- up to the first link, the number of links left stays
  have stage : ∀ k, (∀ cur n rest t, f cur = some .dir → f (cur ++ [n]) = some (.link t) →
      P k cur (.name n :: rest) (walk f k cur (.name n :: rest))) →
      ∀ comps cur, P k cur comps (walk f k cur comps) := by
    intro k hlink comps
    induction comps with
    | nil =>
        intro cur
        rw [walk_nil]
        exact nil k cur
    | cons c rest ih =>
        intro cur
        by_cases hdir : f cur = some .dir
        · cases c with
          | here =>
              rw [walk_here hdir]
              exact here k cur rest _ hdir (ih cur)
          | up =>
              rw [walk_up hdir]
              exact up k cur rest _ hdir (ih cur.dropLast)
          | name n =>
              cases hn : f (cur ++ [n]) with
              | none =>
                  rw [walk_missing hdir hn]
                  exact missing k cur n rest hdir hn
              | some node =>
                  by_cases hsolid : node.solid
                  · rw [walk_enter hdir hn hsolid]
                    exact enter k cur n rest _ node hdir hn hsolid (ih _)
                  · cases node with
                    | link t => exact hlink cur n rest t hdir hn
                    | _ => exact absurd trivial hsolid
        · rw [walk_notDir hdir]
          exact notDir k cur c rest hdir
  induction k generalizing cur comps with
  | zero =>
      refine stage 0 (fun cur n rest t hdir hn => ?_) comps cur
      rw [walk_limit hdir hn]
      exact limit cur n rest t hdir hn
  | succ k ih =>
      refine stage (k + 1) (fun cur n rest t hdir hn => ?_) comps cur
      rw [walk_follow hdir hn]
      exact follow k cur n rest _ t hdir hn (ih _ _)

/-- A walk that misses a name misses it with more to go. -/
theorem walk_append_missing {comps b : List (Comp ν)} {p : List ν}
    (h : walk f k cur comps = .missing p rest) :
    walk f k cur (comps ++ b) = .missing p (rest ++ b) := by
  -- Along the walk: appending changes no step before the name that is missing.
  revert h
  refine walk_induction (P := fun k cur comps o => o = .missing p rest →
    walk f k cur (comps ++ b) = .missing p (rest ++ b)) ?_ ?_ ?_ ?_ ?_ ?_ ?_ ?_ k cur comps
  · exact fun k cur h => absurd h (by simp only [reduceCtorEq, not_false_eq_true])
  · exact fun k cur c r _ h => absurd h (by simp only [reduceCtorEq, not_false_eq_true])
  · intro k cur r o hdir ih h
    rw [List.cons_append, walk_here hdir]
    exact ih h
  · intro k cur r o hdir ih h
    rw [List.cons_append, walk_up hdir]
    exact ih h
  · intro k cur n r hdir hn h
    rw [Outcome.missing.injEq] at h
    rw [List.cons_append, walk_missing hdir hn, h.1, h.2]
  · intro k cur n r o node hdir hn hsolid ih h
    rw [List.cons_append, walk_enter hdir hn hsolid]
    exact ih h
  · intro k cur n r o t hdir hn ih h
    rw [List.cons_append, walk_follow hdir hn, ← List.append_assoc]
    exact ih h
  · exact fun cur n r t _ _ h => absurd h (by simp only [reduceCtorEq, not_false_eq_true])

/-- A walk that arrives goes on from there, with the links it has left. -/
theorem walk_append_found {comps b : List (Comp ν)} {loc : List ν}
    (h : walk f k cur comps = .found loc) :
    ∃ k', walk f k cur (comps ++ b) = walk f k' loc b := by
  -- Along the walk, and at its end the appended part begins.
  revert h
  refine walk_induction (P := fun k cur comps o => o = .found loc →
    ∃ k', walk f k cur (comps ++ b) = walk f k' loc b) ?_ ?_ ?_ ?_ ?_ ?_ ?_ ?_ k cur comps
  · intro k cur h
    exact ⟨k, by rw [Outcome.found.inj h, List.nil_append]⟩
  · exact fun k cur c r _ h => absurd h (by simp only [reduceCtorEq, not_false_eq_true])
  · intro k cur r o hdir ih h
    rw [List.cons_append, walk_here hdir]
    exact ih h
  · intro k cur r o hdir ih h
    rw [List.cons_append, walk_up hdir]
    exact ih h
  · exact fun k cur n r _ _ h => absurd h (by simp only [reduceCtorEq, not_false_eq_true])
  · intro k cur n r o node hdir hn hsolid ih h
    rw [List.cons_append, walk_enter hdir hn hsolid]
    exact ih h
  · intro k cur n r o t hdir hn ih h
    rw [List.cons_append, walk_follow hdir hn, ← List.append_assoc]
    exact ih h
  · exact fun cur n r t _ _ h => absurd h (by simp only [reduceCtorEq, not_false_eq_true])

/-! ## Two file systems -/

/-- A set of locations that a walk stays in unless it goes down out of it. -/
structure Closed (S : Set (List ν)) : Prop where
  root : [] ∈ S
  parent : ∀ p ∈ S, p.dropLast ∈ S

/-- A walk that finds nothing out of a closed set ends in it, if anywhere. -/
theorem walk_found_mem {S : Set (List ν)} (hS : Closed S) (hnone : ∀ p, p ∉ S → f p = none)
    {comps : List (Comp ν)} {loc : List ν} (hcur : cur ∈ S)
    (h : walk f k cur comps = .found loc) : loc ∈ S := by
  revert hcur h
  refine walk_induction (P := fun k cur comps o => cur ∈ S → o = .found loc → loc ∈ S)
    ?_ ?_ ?_ ?_ ?_ ?_ ?_ ?_ k cur comps
  · exact fun k cur hcur h => Outcome.found.inj h ▸ hcur
  · exact fun k cur c r _ _ h => absurd h (by simp only [reduceCtorEq, not_false_eq_true])
  · exact fun k cur r o _ ih => ih
  · exact fun k cur r o _ ih hcur => ih (hS.parent cur hcur)
  · exact fun k cur n r _ _ _ h => absurd h (by simp only [reduceCtorEq, not_false_eq_true])
  · intro k cur n r o node hdir hn hsolid ih hcur
    refine ih (by_contra fun hout => ?_)
    rw [hnone _ hout] at hn
    exact absurd hn (by simp only [reduceCtorEq, not_false_eq_true])
  · intro k cur n r o t hdir hn ih hcur
    refine ih ?_
    -- an absolute link leads to the root, which is in the set
    by_cases habs : t.absolute = true
    · rw [if_pos habs]
      exact hS.root
    · rw [if_neg habs]
      exact hcur
  · exact fun cur n r t _ _ _ h => absurd h (by simp only [reduceCtorEq, not_false_eq_true])

/-- A walk that misses no name out of a closed set sees only what is known of
    the set: a file system that agrees on it is walked alike. -/
theorem walk_confined {S : Set (List ν)} (hS : Closed S) (hagree : ∀ p ∈ S, g p = f p)
    (hnone : ∀ p, p ∉ S → f p = none) {comps : List (Comp ν)} (hcur : cur ∈ S)
    (h : ∀ p rest, walk f k cur comps = .missing p rest → p ∈ S) :
    walk g k cur comps = walk f k cur comps := by
  have hin : ∀ {p node}, f p = some node → p ∈ S := by
    intro p node hp
    by_contra hout
    rw [hnone p hout] at hp
    exact absurd hp (by simp only [reduceCtorEq, not_false_eq_true])
  -- Along the walk in `f`: each node it sees is in the set, where `g` has the same.
  revert hcur h
  refine walk_induction (P := fun k cur comps o => cur ∈ S →
    (∀ p rest, o = .missing p rest → p ∈ S) → walk g k cur comps = o)
    ?_ ?_ ?_ ?_ ?_ ?_ ?_ ?_ k cur comps
  · exact fun k cur _ _ => walk_nil
  · intro k cur c r hdir hcur _
    exact walk_notDir (by rw [hagree cur hcur]; exact hdir)
  · intro k cur r o hdir ih hcur h
    rw [walk_here (by rw [hagree cur hcur]; exact hdir)]
    exact ih hcur h
  · intro k cur r o hdir ih hcur h
    rw [walk_up (by rw [hagree cur hcur]; exact hdir)]
    exact ih (hS.parent cur hcur) h
  · intro k cur n r hdir hn hcur h
    have hmem := h _ _ rfl
    exact walk_missing (by rw [hagree cur hcur]; exact hdir) (by rw [hagree _ hmem]; exact hn)
  · intro k cur n r o node hdir hn hsolid ih hcur h
    have hmem := hin hn
    rw [walk_enter (by rw [hagree cur hcur]; exact hdir) (by rw [hagree _ hmem]; exact hn) hsolid]
    exact ih hmem h
  · intro k cur n r o t hdir hn ih hcur h
    have hmem := hin hn
    rw [walk_follow (by rw [hagree cur hcur]; exact hdir) (by rw [hagree _ hmem]; exact hn)]
    refine ih ?_ h
    by_cases habs : t.absolute = true
    · rw [if_pos habs]
      exact hS.root
    · rw [if_neg habs]
      exact hcur
  · intro cur n r t hdir hn hcur _
    have hmem := hin hn
    exact walk_limit (by rw [hagree cur hcur]; exact hdir) (by rw [hagree _ hmem]; exact hn)

/-- Where a name was missing, a file system that has it and all the rest is
    walked on from it. -/
theorem walk_through (hagree : ∀ p node, f p = some node → g p = some node)
    {comps : List (Comp ν)} {p : List ν} {node : Node ν β} (hp : g p = some node)
    (hsolid : node.solid) (h : walk f k cur comps = .missing p rest) :
    ∃ k', walk g k cur comps = walk g k' p rest := by
  -- Along the walk in `f`, which `g` follows up to the name that `f` misses.
  revert h
  refine walk_induction (P := fun k cur comps o => o = .missing p rest →
    ∃ k', walk g k cur comps = walk g k' p rest) ?_ ?_ ?_ ?_ ?_ ?_ ?_ ?_ k cur comps
  · exact fun k cur h => absurd h (by simp only [reduceCtorEq, not_false_eq_true])
  · exact fun k cur c r _ h => absurd h (by simp only [reduceCtorEq, not_false_eq_true])
  · intro k cur r o hdir ih h
    rw [walk_here (hagree _ _ hdir)]
    exact ih h
  · intro k cur r o hdir ih h
    rw [walk_up (hagree _ _ hdir)]
    exact ih h
  · intro k cur n r hdir hn h
    rw [Outcome.missing.injEq] at h
    rcases h with ⟨rfl, rfl⟩
    exact ⟨k, walk_enter (hagree _ _ hdir) hp hsolid⟩
  · intro k cur n r o node' hdir hn hsolid' ih h
    rw [walk_enter (hagree _ _ hdir) (hagree _ _ hn) hsolid']
    exact ih h
  · intro k cur n r o t hdir hn ih h
    rw [walk_follow (hagree _ _ hdir) (hagree _ _ hn)]
    exact ih h
  · exact fun cur n r t _ _ h => absurd h (by simp only [reduceCtorEq, not_false_eq_true])

/-- Names lead down through directories to what is at their end, and the walk
    goes on from there. -/
theorem walk_down {p ns : List ν} {rest : List (Comp ν)} {node : Node ν β}
    (hdirs : ∀ i < ns.length, g (p ++ ns.take i) = some .dir)
    (hend : g (p ++ ns) = some node) (hsolid : node.solid) :
    walk g k p (ns.map .name ++ rest) = walk g k (p ++ ns) rest := by
  induction ns generalizing p with
  | nil => rw [List.map_nil, List.nil_append, List.append_nil]
  | cons n ns ih =>
      have hdir : g p = some .dir := by
        have h := hdirs 0 (Nat.succ_pos _)
        rwa [List.take_zero, List.append_nil] at h
      have hend' : g (p ++ [n] ++ ns) = some node := by
        rwa [List.append_assoc, List.singleton_append]
      have hdirs' : ∀ i < ns.length, g (p ++ [n] ++ ns.take i) = some .dir := by
        intro i hi
        have h := hdirs (i + 1) (Nat.succ_lt_succ hi)
        rwa [List.take_succ_cons, ← List.singleton_append, ← List.append_assoc] at h
      have hnext : ∃ next, g (p ++ [n]) = some next ∧ next.solid := by
        cases ns with
        | nil => exact ⟨node, by rwa [List.append_nil] at hend', hsolid⟩
        | cons m ms =>
            have h := hdirs' 0 (Nat.succ_pos _)
            rw [List.take_zero, List.append_nil] at h
            exact ⟨.dir, h, trivial⟩
      rcases hnext with ⟨next, hnext, hsolid'⟩
      rw [List.map_cons, List.cons_append, walk_enter hdir hnext hsolid', ih hdirs' hend',
        List.append_assoc, List.singleton_append]

/-- Names lead down through directories to what is at their end. -/
theorem walk_names {p ns : List ν} {node : Node ν β}
    (hdirs : ∀ i < ns.length, g (p ++ ns.take i) = some .dir)
    (hend : g (p ++ ns) = some node) (hsolid : node.solid) :
    walk g k p (ns.map .name) = .found (p ++ ns) := by
  have h : walk g k p (ns.map .name ++ []) = walk g k (p ++ ns) [] := walk_down hdirs hend hsolid
  rwa [List.append_nil, walk_nil] at h

/-- Without a link on the way, a walk over two names arrives where they say, or
    it does not arrive. -/
theorem walk_two {a b : ν} (hdir : g cur = some .dir)
    (ha : ∀ t, g (cur ++ [a]) ≠ some (.link t)) (hb : ∀ t, g (cur ++ [a] ++ [b]) ≠ some (.link t)) :
    walk g k cur [.name a, .name b] = .failed ∨
    walk g k cur [.name a, .name b] = .missing (cur ++ [a]) [.name b] ∨
    walk g k cur [.name a, .name b] = .missing (cur ++ [a] ++ [b]) [] ∨
    walk g k cur [.name a, .name b] = .found (cur ++ [a] ++ [b]) := by
  cases hga : g (cur ++ [a]) with
  | none => exact .inr (.inl (walk_missing hdir hga))
  | some x =>
      cases x with
      | link t => exact absurd hga (ha t)
      | file content =>
          rw [walk_enter hdir hga trivial]
          exact .inl (walk_notDir (by simp only [hga, ne_eq, Option.some.injEq, reduceCtorEq,
            not_false_eq_true]))
      | dir =>
          rw [walk_enter hdir hga trivial]
          cases hgb : g (cur ++ [a] ++ [b]) with
          | none => exact .inr (.inr (.inl (walk_missing hga hgb)))
          | some y =>
              cases y with
              | link t => exact absurd hgb (hb t)
              | _ =>
                  rw [walk_enter hga hgb trivial, walk_nil]
                  exact .inr (.inr (.inr rfl))

end

end PathWalk
