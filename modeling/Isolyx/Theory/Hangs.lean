import Isolyx.Core.ChildLocks

/-!
# Children That Hang

Between `clone` and `execvp` a child calls `setenv`, `seccomp_load` and, where
something fails, `perror`. The locks of these calls may be held by any other
thread of the engine at the moment of the clone, and then the child waits for a
thread that it does not have.

A child hangs exactly if some lock on its path was held (`childEntry_hangs_iff`).
Which locks these are follows from the script: the allocator's if no fatal step
before `setenv` fails and somebody allocates after that, and the one of `stderr`
if a step fails that is reported (`mem_needs_heap`, `mem_needs_stderr`). The
lock of the environment is never held, since the engine itself does not call
`setenv` (`held_environ`).

## Main definitions

* `Unhung`: No child hangs.
* `needs`: The locks on the path of a child.
* `Clear`: A child is cloned while nobody holds a lock on its path.

## Theorems

* `childEntry_hangs_iff`: A child hangs if a lock on its path was held.
* `needs_append`: The locks of a longer script.
* `mem_needs_heap`, `mem_needs_stderr`: Which locks are on the path.
* `clear_iff`: When a launched child does not hang.
* `unhung_iff`: When no child hangs.
* `child_hangs`: A child that hangs.
-/

namespace Isolyx

namespace ChildLocks

open Launch (OsStep Script cloneScript childScript)
open Lts

/-- No child hangs. -/
def Unhung {n : Nat} (s : State n) : Prop := ∀ o ∈ s.children, ∀ l, o ≠ .hangs l

/-! ## The path of a child -/

/-- The locks on the path of a child, if it does not hang. -/
def needs (ok : OsStep → Bool) (allocates : Bool) : Script → List Lock
  | [] => []
  | (s, fatal) :: rest => takes allocates s ++
      if ok s then needs ok allocates rest
      else (if reports s then [.stderr] else []) ++
        if fatal then [] else needs ok allocates rest

section

variable {held : Lock → Bool} {ok : OsStep → Bool} {allocates : Bool}

theorem childEntry_hangs_iff (script : Script) :
    (∃ l, childEntry held ok allocates script = .hangs l) ↔
      ∃ l ∈ needs ok allocates script, held l = true := by
  induction script with
  | nil => simp only [childEntry, needs, reduceCtorEq, exists_false, List.not_mem_nil, false_and]
  | cons step rest ih =>
      rcases step with ⟨s, fatal⟩
      cases hfind : (takes allocates s).find? held with
      | some l =>
          refine iff_of_true ⟨l, by simp only [childEntry, hfind]⟩ ⟨l, ?_, List.find?_some hfind⟩
          exact List.mem_append_left _ (List.mem_of_find?_eq_some hfind)
      | none =>
          -- The step itself takes no lock that is held.
          have hfree : ¬ ∃ l ∈ takes allocates s, held l = true := by
            simpa only [List.find?_eq_none, Bool.not_eq_true, not_exists, not_and] using hfind
          simp only [childEntry, hfind, needs, List.mem_append, or_and_right, exists_or, hfree,
            false_or]
          cases ok s with
          | true => exact ih
          | false =>
              have hreport : (∃ l ∈ if reports s then [Lock.stderr] else [], held l = true) ↔
                  (reports s && held .stderr) = true := by
                cases reports s <;> simp
              simp only [Bool.false_eq_true, if_false, List.mem_append, or_and_right, exists_or,
                hreport]
              by_cases hrep : (reports s && held .stderr) = true
              · rw [if_pos hrep]
                exact iff_of_true ⟨.stderr, rfl⟩ (.inl hrep)
              · rw [if_neg hrep]
                cases fatal with
                | true => simp [hrep]
                | false => simpa [hrep] using ih

theorem needs_append (first rest : Script) :
    needs ok allocates (first ++ rest) = needs ok allocates first ++
      if first.passes ok then needs ok allocates rest else [] := by
  induction first with
  | nil => rfl
  | cons step first ih =>
      rcases step with ⟨s, fatal⟩
      have hpass : Script.passes ok ((s, fatal) :: first)
          = ((!fatal || ok s) && Script.passes ok first) := rfl
      rw [List.cons_append, needs, needs, ih, hpass, List.append_assoc]
      cases ok s <;> cases fatal <;> simp [List.append_assoc]

/-- A lock on the path is taken by a step, or it is that of a report. -/
theorem mem_needs {script : Script} {l : Lock} (h : l ∈ needs ok allocates script) :
    (∃ s ∈ script, l ∈ takes allocates s.1) ∨
      l = .stderr ∧ ∃ s ∈ script, reports s.1 = true ∧ ok s.1 = false := by
  induction script with
  | nil => exact absurd h List.not_mem_nil
  | cons step rest ih =>
      rcases step with ⟨s, fatal⟩
      have hrest (h : l ∈ needs ok allocates rest) :
          (∃ r ∈ (s, fatal) :: rest, l ∈ takes allocates r.1) ∨
            l = .stderr ∧ ∃ r ∈ (s, fatal) :: rest, reports r.1 = true ∧ ok r.1 = false := by
        rcases ih h with ⟨r, hr, hl⟩ | ⟨hl, r, hr, hfail⟩
        · exact .inl ⟨r, List.mem_cons_of_mem _ hr, hl⟩
        · exact .inr ⟨hl, r, List.mem_cons_of_mem _ hr, hfail⟩
      rw [needs, List.mem_append] at h
      rcases h with h | h
      · exact .inl ⟨(s, fatal), List.mem_cons_self, h⟩
      · cases hok : ok s with
        | true =>
            rw [hok, if_pos rfl] at h
            exact hrest h
        | false =>
            rw [hok, if_neg Bool.false_ne_true, List.mem_append] at h
            rcases h with h | h
            · split_ifs at h with hrep
              · exact .inr ⟨List.mem_singleton.mp h, (s, fatal), List.mem_cons_self, hrep, hok⟩
              · exact absurd h List.not_mem_nil
            · split_ifs at h
              · exact absurd h List.not_mem_nil
              · exact hrest h

/-- Whatever step fails and is reported, something is reported: if the child
    does not get to it, a fatal step was. -/
theorem stderr_mem_needs {script : Script} (hfatal : ∀ s ∈ script, s.2 = true → reports s.1 = true)
    {s : OsStep × Bool} (hs : s ∈ script) (hrep : reports s.1 = true) (hfail : ok s.1 = false) :
    .stderr ∈ needs ok allocates script := by
  induction script with
  | nil => exact absurd hs List.not_mem_nil
  | cons step rest ih =>
      rw [needs]
      refine List.mem_append_right _ ?_
      have hrest (h : s ∈ rest) : .stderr ∈ needs ok allocates rest :=
        ih (fun r hr => hfatal r (List.mem_cons_of_mem _ hr)) h
      cases hok : ok step.1 with
      | true =>
          rw [if_pos rfl]
          rcases List.mem_cons.mp hs with rfl | hs
          · exact absurd (hfail.symm.trans hok) Bool.false_ne_true
          · exact hrest hs
      | false =>
          rw [if_neg Bool.false_ne_true]
          cases hstep : reports step.1 with
          | true => exact List.mem_append_left _ List.mem_cons_self
          | false =>
              have hgoes : ¬ step.2 = true := fun hf =>
                Bool.false_ne_true (hstep.symm.trans (hfatal step List.mem_cons_self hf))
              refine List.mem_append_right _ ?_
              rw [if_neg hgoes]
              rcases List.mem_cons.mp hs with rfl | hs
              · exact absurd (hstep.symm.trans hrep) Bool.false_ne_true
              · exact hrest hs

end

/-! ## The script -/

/-- Before `setenv`, no step takes a lock. -/
theorem childScript_split (cmd : Command) : ∃ setup : Script,
    (∀ allocates, ∀ s ∈ setup, takes allocates s.1 = []) ∧
      ∀ context : Bool, childScript cmd context = setup ++ ([(.setenv, false), (.setpgid, false)] ++
        if context then [(.seccompLoad, true)] else []) := by
  simp only [childScript]
  cases cmd.redirectOutput.isEmpty <;> cases cmd.redirectInput.isEmpty <;>
    exact ⟨_, by decide, fun context => List.append_assoc _ _ _⟩

theorem fatal_reports (cmd : Command) (context : Bool) :
    ∀ s ∈ childScript cmd context, s.2 = true → reports s.1 = true := by
  simp only [childScript]
  cases cmd.redirectOutput.isEmpty <;> cases cmd.redirectInput.isEmpty <;> cases context <;> decide

theorem stderr_not_mem_takes (allocates : Bool) (s : OsStep) : .stderr ∉ takes allocates s := by
  cases s <;> cases allocates <;> simp [takes]

section

variable {ok : OsStep → Bool} {allocates : Bool}

/-- A child takes the lock of the allocator if it gets to `setenv`, and that or
    the filter allocates. -/
theorem mem_needs_heap (cmd : Command) (context : Bool) :
    .heap ∈ needs ok allocates (childScript cmd context) ↔
      (childScript cmd false).passes ok = true ∧ (allocates || context) = true := by
  rcases childScript_split cmd with ⟨setup, hnone, hsplit⟩
  have hpass : (childScript cmd false).passes ok = setup.passes ok := by
    rw [hsplit false]
    simp [Script.passes]
  have hsetup : .heap ∉ needs ok allocates setup := by
    intro h
    rcases mem_needs h with ⟨s, hs, hl⟩ | ⟨hl, -⟩
    · rw [hnone allocates s hs] at hl
      exact absurd hl List.not_mem_nil
    · exact nomatch hl
  rw [hpass, hsplit context, needs_append, List.mem_append, or_iff_right hsetup]
  cases setup.passes ok with
  | false => simp
  | true =>
      cases allocates <;> cases context <;> cases hload : ok .seccompLoad <;>
        simp [needs, takes, reports, hload]

/-- It takes the one of `stderr` if a step fails that is reported. -/
theorem mem_needs_stderr (allocates : Bool) (cmd : Command) (context : Bool) :
    .stderr ∈ needs ok allocates (childScript cmd context) ↔
      ∃ s ∈ childScript cmd context, reports s.1 = true ∧ ok s.1 = false := by
  constructor
  · intro h
    rcases mem_needs h with ⟨s, -, hl⟩ | ⟨-, hs⟩
    · exact absurd hl (stderr_not_mem_takes allocates s.1)
    · exact hs
  · rintro ⟨s, hs, hrep, hfail⟩
    exact stderr_mem_needs (fatal_reports cmd context) hs hrep hfail

end

/-! ## The engine -/

variable {n : Nat}

/-- A child is cloned while nobody holds a lock on its path: that of the
    allocator, if it gets to `setenv` and anything allocates from there on, and
    that of `stderr`, if a step fails that is reported. -/
def Clear (s : State n) : Action n → Prop
  | .launch _ w => cloneScript.passes w.ok = true →
      ((childScript w.cmd false).passes w.ok = true ∧ (w.allocates || w.context) = true →
        held s .heap = false) ∧
      ((∃ r ∈ w.script, reports r.1 = true ∧ w.ok r.1 = false) → held s .stderr = false)
  | _ => True

/-- Nobody holds the lock of the environment. -/
theorem held_environ (s : State n) : held s .environ = false := by
  refine decide_eq_false ?_
  rintro ⟨i, hi⟩
  rcases Option.map_eq_some_iff.mp hi with ⟨call, -, hcall⟩
  cases call <;> exact nomatch hcall

/-- A child does not hang exactly if nobody held a lock on its path. -/
theorem clear_iff (s : State n) (w : Request) :
    (∀ l, childEntry (held s) w.ok w.allocates w.script ≠ .hangs l) ↔
      ((childScript w.cmd false).passes w.ok = true ∧ (w.allocates || w.context) = true →
        held s .heap = false) ∧
      ((∃ r ∈ w.script, reports r.1 = true ∧ w.ok r.1 = false) → held s .stderr = false) := by
  rw [← mem_needs_heap w.cmd w.context, Request.script,
    ← mem_needs_stderr w.allocates w.cmd w.context]
  constructor
  · intro h
    have hfree {l : Lock} (hl : l ∈ needs w.ok w.allocates (childScript w.cmd w.context)) :
        held s l = false := by
      by_contra hheld
      rw [Bool.not_eq_false] at hheld
      rcases (childEntry_hangs_iff _).mpr ⟨l, hl, hheld⟩ with ⟨k, hk⟩
      exact h k hk
    exact ⟨hfree, hfree⟩
  · rintro ⟨hheap, hstderr⟩ l hl
    rcases (childEntry_hangs_iff _).mp ⟨l, hl⟩ with ⟨k, hk, hheld⟩
    cases k with
    | environ => exact absurd ((held_environ s).symm.trans hheld) Bool.false_ne_true
    | heap => exact absurd ((hheap hk).symm.trans hheld) Bool.false_ne_true
    | stderr => exact absurd ((hstderr hk).symm.trans hheld) Bool.false_ne_true

theorem unhung_step_iff {s t : State n} {a : Action n} (hs : Unhung s)
    (hstep : step s a = some t) : Unhung t ↔ Clear s a := by
  rcases moves_of_step hstep with ⟨i, call, _, _⟩ | ⟨i, _⟩ | ⟨i, w, _⟩
  · exact iff_of_true hs trivial
  · exact iff_of_true hs trivial
  · have hnew : Unhung { s with children := s.children ++ launched s w } ↔
        ∀ o ∈ launched s w, ∀ l, o ≠ .hangs l := by
      simp only [Unhung, List.mem_append, or_imp, forall_and]
      exact and_iff_right hs
    rw [hnew, launched, Clear]
    cases cloneScript.passes w.ok with
    | false =>
        exact iff_of_true (fun _ h => absurd h List.not_mem_nil)
          (fun h => absurd h Bool.false_ne_true)
    | true =>
        rw [if_pos rfl, List.forall_mem_singleton, clear_iff]
        exact ⟨fun h _ => h, fun h => h rfl⟩

/-- In a run of the engine's threads and launches no child hangs, ever, exactly
    if every child is cloned while nobody holds a lock on its path. -/
theorem unhung_iff (as : List (Action n)) :
    Always step Unhung (init (n := n)) as ↔ Along step Clear (init (n := n)) as :=
  always_iff_along (I := fun _ => True) (fun _ _ _ _ _ _ => trivial)
    (fun _ _ _ _ => unhung_step_iff) as trivial fun _ h => nomatch h

/-- A job for which everything goes well. -/
def smooth : Request where
  cmd := { executable := ascii "/a", arguments := [ascii "/a"] }
  policy := true
  ok := fun _ => true
  allocates := false

/-- Another thread allocates while a job is launched for which everything goes
    well, and its child waits for the allocator before the filter is loaded. -/
theorem child_hangs : ∃ (as : List (Action 2)) (t : State 2),
    run step init as = some t ∧ t.children = [.hangs .heap] ∧ ¬ Always step Unhung init as := by
  let as : List (Action 2) := [.enter 1 .allocation, .launch 0 smooth]
  have hrun : (run step init as).map State.children = some [.hangs .heap] := by decide
  rcases Option.map_eq_some_iff.mp hrun with ⟨t, ht, hchildren⟩
  refine ⟨as, t, ht, hchildren, fun h => ?_⟩
  exact always_end h ht (.hangs .heap) (hchildren ▸ List.mem_cons_self) .heap rfl

end ChildLocks

end Isolyx
