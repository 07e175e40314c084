import Isolyx.Core.Launch
import Mathlib.Tactic.Common

/-!
# Whether a Launch Fails Closed

A launch fails closed if the program does not start unless everything that was
asked to restrict it is in place. Which step restricts and which step stops a
launch are two different questions, and in this launch they have almost
disjoint answers. Nothing in the limiter or in the making of the filter stops
anything: a directory that was not made, a control file that was not written, a
pid that did not join and a context that is null are reported at most. Only the
loading of a filter that exists is both.

So the launch of a program is closed in two cases only, that something else
stops it or that every restricting step succeeds (`failsClosed_iff`); one failed
step of the limiter or of the policy, with nothing else wrong, starts the
program without that restriction. A command for which `execute` starts no
program is the third case.

## Main definitions

* `Restricted`: Every requested restriction is in place.
* `FailsClosed`: The program starts only if it is restricted.
* `Stopped`: A step whose failure is the end fails.
* `StartsNothing`: `execute` starts no program for the command.
* `Complete`: Every step that restricts succeeds.

## Theorems

* `passes_iff`: A script passes when none of its fatal steps fails.
* `reached_iff`: The program starts when no step stops the launch.
* `restricted_iff`: It is restricted when every restricting step succeeded.
* `failsClosed_iff`: A launch fails closed in these three cases only.
* `unlimited_program_starts`: A program starts without its cgroup.
-/

namespace Isolyx

namespace Launch

variable {ok : OsStep → Bool} {limits : Limits} {cmd : Command}

/-- The child is in a cgroup that carries every requested limit, and the whole
    filter is loaded. -/
structure Restricted (limits : Limits) (l : Launched) : Prop where
  member : l.member = true
  limits : l.limits = limits.requested
  filter : l.filter = some denylist

/-- The program starts only if it is restricted. -/
def FailsClosed (limits : Limits) (l : Launched) : Prop := l.reached = true → Restricted limits l

/-- A step whose failure is the end of the launch or of the child fails. -/
def Stopped (ok : OsStep → Bool) (cmd : Command) : Prop :=
  ∃ st, (st, true) ∈ cloneScript ++ parentScript ++ childScript cmd (ok .seccompInit) ∧
    ok st = false

/-- The command is empty, `cd` or `exit`, which `execute` does not launch. -/
def StartsNothing (cmd : Command) : Prop := cmd.isEmpty = true ∨ cmd.isBuiltin = true

/-- Every step that restricts succeeds. -/
structure Complete (ok : OsStep → Bool) (limits : Limits) : Prop where
  directory : ok .createDirectories = true
  controls : ∀ f ∈ limits.requested, ok (.openControl f.1) = true ∧ ok (.writeControl f.1) = true
  procs : ok (.openControl .procs) = true ∧ ok (.writeControl .procs) = true
  context : ok .seccompInit = true
  rules : ∀ call ∈ denylist, ok (.ruleAdd call) = true

theorem passes_iff (script : Script) :
    script.passes ok = true ↔ ∀ st, (st, true) ∈ script → ok st = true := by
  simp only [Script.passes, List.all_eq_true, Bool.or_eq_true, Bool.not_eq_true']
  constructor
  · intro h st hst
    rcases h (st, true) hst with hfatal | hok
    · exact absurd hfatal (by simp only [Bool.true_eq_false, not_false_eq_true])
    · exact hok
  · rintro h ⟨st, fatal⟩ hst
    cases fatal with
    | false => exact Or.inl rfl
    | true => exact Or.inr (h st hst)

/-- Whether the context is null is the outcome of `seccomp_init`. -/
theorem policyInit_isSome : (policyInit ok).isSome = ok .seccompInit := by
  unfold policyInit
  cases ok .seccompInit <;> rfl

theorem reached_iff :
    (isolateAndRun ok (some limits) true cmd).reached = true ↔ ¬ Stopped ok cmd := by
  simp only [isolateAndRun, if_true, policyInit_isSome, Bool.and_eq_true, passes_iff, Stopped,
    List.mem_append, not_exists, not_and, Bool.not_eq_false]
  constructor
  · rintro ⟨⟨hclone, hparent⟩, hchild⟩ st ((hst | hst) | hst)
    · exact hclone st hst
    · exact hparent st hst
    · exact hchild st hst
  · exact fun h => ⟨⟨fun st hst => h st (Or.inl (Or.inl hst)),
      fun st hst => h st (Or.inl (Or.inr hst))⟩, fun st hst => h st (Or.inr hst)⟩

theorem stores_iff (file : ControlFile) : stores ok file = true ↔
    ok .createDirectories = true ∧ ok (.openControl file) = true ∧
      ok (.writeControl file) = true := by
  rw [stores, Bool.and_eq_true, Bool.and_eq_true, and_assoc]

/-- A program that starts is restricted when every restricting step succeeded. -/
theorem restricted_iff (hreached : (isolateAndRun ok (some limits) true cmd).reached = true) :
    Restricted limits (isolateAndRun ok (some limits) true cmd) ↔ Complete ok limits := by
  have hcloned : cloneScript.passes ok = true := by
    simp only [isolateAndRun, Bool.and_eq_true] at hreached
    exact hreached.1.1
  have hfilter : (isolateAndRun ok (some limits) true cmd).filter = policyInit ok := by
    simp only [isolateAndRun, if_true] at hreached ⊢
    rw [if_pos hreached]
  have hmember : (isolateAndRun ok (some limits) true cmd).member = stores ok .procs := by
    simp only [isolateAndRun, Option.isSome_some, hcloned, Bool.true_and, applyToPid]
  constructor
  · intro h
    have hprocs := (stores_iff .procs).mp (hmember.symm.trans h.member)
    -- a filter that lost nothing is one whose condition always holds
    have hcontrols := List.filter_eq_self.mp h.limits
    have hrules := hfilter.symm.trans h.filter
    have hcontext : ok .seccompInit = true := by
      have hsome := @policyInit_isSome ok
      rw [hrules] at hsome
      exact hsome.symm
    rw [policyInit, if_pos hcontext, Option.some.injEq, List.filter_eq_self] at hrules
    exact ⟨hprocs.1, fun f hf => ((stores_iff f.1).mp (hcontrols f hf)).2, hprocs.2, hcontext,
      hrules⟩
  · intro h
    refine ⟨?_, ?_, ?_⟩
    · rw [hmember, stores_iff]
      exact ⟨h.directory, h.procs⟩
    · exact List.filter_eq_self.mpr fun f hf => (stores_iff f.1).mpr ⟨h.directory, h.controls f hf⟩
    · rw [hfilter, policyInit, if_pos h.context, Option.some.injEq, List.filter_eq_self]
      exact h.rules

theorem isolateAndRun_failsClosed_iff (ok : OsStep → Bool) (limits : Limits) (cmd : Command) :
    FailsClosed limits (isolateAndRun ok (some limits) true cmd) ↔
      Stopped ok cmd ∨ Complete ok limits := by
  by_cases hreached : (isolateAndRun ok (some limits) true cmd).reached = true
  · have hnot := reached_iff.mp hreached
    constructor
    · exact fun h => Or.inr ((restricted_iff hreached).mp (h hreached))
    · rintro (h | h)
      · exact absurd h hnot
      · exact fun _ => (restricted_iff hreached).mpr h
  · have hstopped : Stopped ok cmd := by
      by_contra h
      exact hreached (reached_iff.mpr h)
    exact ⟨fun _ => Or.inl hstopped, fun _ h => absurd h hreached⟩

/-- For all limits, commands and combinations of failures: the launch fails
    closed exactly when there is nothing to start, a step that stops it fails or
    every step that restricts succeeds. -/
theorem failsClosed_iff (ok : OsStep → Bool) (limits : Limits) (cmd : Command) :
    FailsClosed limits (launch ok (some limits) true cmd) ↔
      StartsNothing cmd ∨ Stopped ok cmd ∨ Complete ok limits := by
  rw [launch]
  split
  · rename_i hnothing
    -- nothing reaches `execvp`
    exact iff_of_true (fun hr => absurd hr Bool.false_ne_true)
      (Or.inl (Bool.or_eq_true_iff.mp hnothing))
  · rename_i hprogram
    rw [isolateAndRun_failsClosed_iff]
    exact (or_iff_right fun h => hprogram (Bool.or_eq_true_iff.mpr h)).symm

/-- The directory of the cgroup cannot be made, and everything else succeeds. -/
theorem unlimited_program_starts : ¬ ∀ (ok : OsStep → Bool) (limits : Limits) (cmd : Command),
    FailsClosed limits (launch ok (some limits) true cmd) := by
  intro h
  have hr := h (fun st => st ≠ .createDirectories) ⟨50000, 100000, 52428800, 20⟩
    { executable := ascii "/a", arguments := [ascii "/a"] } (by decide)
  exact absurd hr.member (by decide)

end Launch

end Isolyx
