import Isolyx.Theory.Wiring

/-!
# What a Failed Pipeline Leaves Behind

`executePipeline` returns as soon as a `pipe` or a `fork` fails. It closes
nothing on the way out and waits for nobody, so what it leaves behind is
whatever it had opened and started by then. Before the first pipe there is
nothing of either; anywhere later there is the read end of the last pipe, or
both ends of the one just made.

## Main definitions

* `LeavesNothing`: The engine is as it was before the call, which has failed.

## Theorems

* `engine_of_unreturned`: A pipeline under way had no failure.
* `leavesNothing_iff`: Only a failure of the first pipe leaves nothing behind.
-/

namespace Isolyx

namespace Pipeline

open Descriptors (Table standard)
open Descriptors.Table
open Lts

/-- The call has failed; the engine's descriptors are those before it, and no
    child is left that was not waited for. -/
def LeavesNothing (entry : Table Nat) (s : State) : Prop :=
  (∃ result, s.phase = .returned result ∧ result.success = false) ∧ s.table = atEntry entry ∧
    ∀ c ∈ s.children, c.isReaped = true

/-- After a return, a pipeline stays returned. -/
theorem returned_step {pipeline : List Command} {s t : State} {a : Action}
    (h : ∃ result, s.phase = .returned result) (hs : step pipeline s a = some t) :
    ∃ result, t.phase = .returned result := by
  rcases h with ⟨result, h⟩
  cases moves_of_step hs with
  | pipes i hp => exact absurd (hp.symm.trans h) (by simp)
  | pipeFails i hp => exact absurd (hp.symm.trans h) (by simp)
  | forks i fd pid cmd opensOutput opensInput hp hc hpid => exact absurd (hp.symm.trans h) (by simp)
  | forkFails i fd opensOutput opensInput hp => exact absurd (hp.symm.trans h) (by simp)
  | ended k c status hk hc => exact ⟨result, h⟩
  | waits j c status result' hp hj hc => exact absurd (hp.symm.trans h) (by simp)

/-- A failed call of the engine ends the pipeline. -/
theorem returned_of_fails {pipeline : List Command} {s t : State} {a : Action}
    (ha : a.made = false) (hs : step pipeline s a = some t) :
    t.phase = .returned { success := false } := by
  cases moves_of_step hs with
  | pipes i hp => exact absurd ha (by simp [Action.made])
  | pipeFails i hp => rfl
  | forks i fd pid cmd opensOutput opensInput hp hc hpid => exact absurd ha (by simp [Action.made])
  | forkFails i fd opensOutput opensInput hp => rfl
  | ended k c status hk hc => exact absurd ha (by simp [Action.made])
  | waits j c status result hp hj hc => exact absurd ha (by simp [Action.made])

/-- A pipeline under way had no failure, whatever its children could open. -/
theorem engine_of_unreturned {pipeline : List Command} {entry : Table Nat} {s : State}
    {as : List Action} (hn : 2 ≤ pipeline.length)
    (hr : run (step pipeline) (init pipeline entry) as = some s)
    (hunreturned : ¬ ∃ result, s.phase = .returned result) : Engine pipeline entry s := by
  have hmade : Along (step pipeline) (fun _ a => a.made = true) (init pipeline entry) as := by
    refine along_of_not_end (I := fun _ => True)
      (Q := fun u => ∃ result, u.phase = .returned result) (fun _ _ _ _ _ => trivial)
      (fun u a v _ hs ha => ?_) (fun u a v _ hu hs => returned_step hu hs) trivial hr hunreturned
    exact ⟨_, returned_of_fails (Bool.eq_false_iff.mpr ha) hs⟩
  exact end_of_along (P := Engine pipeline entry) (fun u a v hu ha hs => engine_step hu ha hs)
    (engine_init entry hn) hmade hr

/-- Past the first command, the read end of the last pipe is open. -/
theorem between_succ_ne {entry : Table Nat} {i : Nat} {t : Table Desc} {prevFd : Option Nat}
    (hb : Between entry (i + 1) t prevFd) : t ≠ atEntry entry := by
  rcases hb with ⟨n, hn, -, rfl⟩
  exact push_ne hn hn

/-- A `pipe` or `fork` that fails leaves nothing behind exactly if it is the
    pipe of the first command. -/
theorem leavesNothing_iff {pipeline : List Command} {entry : Table Nat} {s t : State}
    {as : List Action} {a : Action} (hn : 2 ≤ pipeline.length)
    (hr : run (step pipeline) (init pipeline entry) as = some s) (ha : a.made = false)
    (hs : step pipeline s a = some t) : LeavesNothing entry t ↔ s.phase = .piping 0 := by
  have hreturned := returned_of_fails ha hs
  cases moves_of_step hs with
  | pipeFails i hp =>
      have h := engine_of_unreturned hn hr fun ⟨result, h⟩ => absurd (hp.symm.trans h) (by simp)
      simp only [Engine, hp] at h
      rcases h with ⟨hi, hlen, hreaped, hb⟩
      cases i with
      | zero =>
          refine iff_of_true ⟨⟨_, hreturned, rfl⟩, hb, fun c hc => ?_⟩ hp
          rw [List.eq_nil_of_length_eq_zero hlen] at hc
          exact absurd hc List.not_mem_nil
      | succ i =>
          refine iff_of_false (fun h => between_succ_ne hb h.2.1) fun h => ?_
          exact absurd (hp.symm.trans h) (by simp)
  | forkFails i fd opensOutput opensInput hp =>
      have h := engine_of_unreturned hn hr fun ⟨result, h⟩ => absurd (hp.symm.trans h) (by simp)
      refine iff_of_false (fun hleft => ?_) fun h => absurd (hp.symm.trans h) (by simp)
      have htable : s.table = atEntry entry := hleft.2.1
      cases fd with
      | none =>
          -- The last command of two or more: the read end of the last pipe.
          simp only [Engine, hp] at h
          rcases h with ⟨hi, hlen, hreaped, hb⟩
          obtain ⟨k, rfl⟩ : ∃ k, i = k + 1 := ⟨i - 1, by omega⟩
          exact between_succ_ne hb htable
      | some ends =>
          -- Both ends of the pipe just made.
          rcases ends with ⟨readFd, writeFd⟩
          simp only [Engine, hp] at h
          rcases h with ⟨hi, hlen, hreaped, t, hr, hw, hb, ht⟩
          have hwt : (atEntry entry).lookup writeFd = none :=
            Between.free hb ((lookup_push_eq_none hr).mp hw).2
          exact push_ne hw hwt (ht.symm.trans htable)
  | pipes i hp => exact absurd ha (by simp [Action.made])
  | forks i fd pid cmd opensOutput opensInput hp hc hpid => exact absurd ha (by simp [Action.made])
  | ended k c status hk hc => exact absurd ha (by simp [Action.made])
  | waits j c status result hp hj hc => exact absurd ha (by simp [Action.made])

theorem leavesNothing_first :
    ∃ s t, run (step pair) (init pair standard) [] = some s ∧
      step pair s (.pipe false) = some t ∧ LeavesNothing standard t := by
  have hiff := leavesNothing_iff (t := { init pair standard with
    phase := .returned { success := false } }) (a := .pipe false) (by decide)
    (show run (step pair) (init pair standard) [] = some (init pair standard) from rfl) rfl rfl
  exact ⟨_, _, rfl, rfl, hiff.mpr rfl⟩

/-- The second command cannot be forked: the first is left running, and the
    engine has the read end of its pipe for good. -/
theorem failed_fork_leaves_child :
    ∃ s, run (step pair) (init pair standard)
        [.pipe true, .fork (some 10) true true, .fork none true true] = some s ∧
      s.phase = .returned { success := false } ∧ s.table ≠ atEntry standard ∧
      s.children.map Child.isReaped = [false] := by
  have hrun : (run (step pair) (init pair standard)
      [.pipe true, .fork (some 10) true true, .fork none true true]).map (fun s =>
        (s.phase, s.table.lookup 3, s.children.map Child.isReaped)) =
      some (.returned { success := false }, some (.readEnd 0), [false]) := by decide
  rcases Option.map_eq_some_iff.mp hrun with ⟨s, hs, heq⟩
  rw [Prod.mk.injEq, Prod.mk.injEq] at heq
  refine ⟨s, hs, heq.1, fun htable => ?_, heq.2.2⟩
  rw [htable] at heq
  exact absurd heq.2.1 (by decide)

end Pipeline

end Isolyx
