import Isolyx.Core.Executor
import Mathlib.Data.List.Nodup

/-!
# Complete Mediation

Whether every program the executor starts is started inside the isolator, with
objects made for it.

`execute` sees to that for any job: what it gives to `isolateAndRun` it has
made in the same call, so no object confines two programs. `executePipeline`
does so for one command, which it hands to `execute`. From two commands on it
forks and calls `execvp` itself, and every program started that way runs on the
host. So mediation is complete exactly as long as no such call happens to start
anything: its pipes and forks fail, its commands have no arguments, or the host
has none of the programs (`Spares`).

The invariant is about the objects only, whose numbers are below the number of
objects made. It holds in every run, and what a call adds to it is a few new
numbers (`Added`).

## Main definitions

* `Mediated`: Every program was started in confinement of its own.
* `Spares`: A pipeline starts nothing on the host.
* `Complies`: A call that starts nothing on the host.
* `Inv`: Objects are numbered in the order they are made.

## Theorems

* `forkStages_goes`, `forkStages_stops`: One turn of the loop over the commands.
* `forkStages_nil`: When that loop starts nothing.
* `execute_added`: `execute` confines what it starts.
* `mediated_step`: A call keeps mediation complete exactly when it complies.
* `complete_mediation`: So does a run of calls.
* `pipeline_on_host`: A pipeline of two commands runs on the host.
-/

namespace Isolyx

namespace Executor

/-- The program runs in the isolator, with what the configured factories make. -/
def Start.confinedBy (f : Factories) : Start → Prop
  | .isolated _ c => c.limiter.isSome = f.limiter ∧ c.watchdog.isSome = f.watchdog ∧
      c.secPolicy.isSome = f.secPolicy
  | .onHost _ => False

/-- The objects a program was started with. -/
def Start.objects : Start → List Nat
  | .isolated _ c => c.limiter.toList ++ c.watchdog.toList ++ c.secPolicy.toList
  | .onHost _ => []

/-- Every program was started in the isolator, and no object confines two. -/
structure Mediated (f : Factories) (s : State) : Prop where
  confined : ∀ x ∈ s.starts, x.confinedBy f
  fresh : (s.starts.flatMap Start.objects).Nodup

/-- The loop over the commands forks a child for the command at a position. -/
def Forked (host : Host) (n i : Nat) : Prop :=
  ∀ k ≤ i, host.fork k = true ∧ (k + 1 < n → host.pipe k = true)

/-- A pipeline is one command at most, or none of the commands that are forked
    has arguments of which the host can execute the first. -/
def Spares (host : Host) (pipeline : List Command) : Prop :=
  pipeline.length ≤ 1 ∨ ∀ i cmd, pipeline[i]? = some cmd → Forked host pipeline.length i →
    cmd.arguments ≠ [] → host.exec i = false

/-- A call that starts nothing on the host. -/
def Complies (_ : State) : Call → Prop
  | .execute _ _ => True
  | .executePipeline pipeline _ host => Spares host pipeline

/-- Objects are numbered in the order they are made. -/
def Inv (s : State) : Prop := ∀ o ∈ s.starts.flatMap Start.objects, o < s.made

/-! ## The loop over the commands -/

theorem child_onHost (host : Host) (i : Nat) (cmd : Command) :
    ∀ x ∈ child host i cmd, ∃ argv, x = .onHost argv := by
  intro x hx
  unfold child at hx
  split at hx
  · exact absurd hx List.not_mem_nil
  · split at hx
    · exact ⟨_, List.mem_singleton.mp hx⟩
    · exact absurd hx List.not_mem_nil

theorem child_nil (host : Host) (i : Nat) (cmd : Command) :
    child host i cmd = [] ↔ (cmd.arguments ≠ [] → host.exec i = false) := by
  unfold child
  split
  · rename_i h
    simp only [h, ne_eq, not_true_eq_false, false_implies]
  · rename_i h
    simp only [h, ne_eq, reduceCtorEq, not_false_eq_true, true_implies]
    split
    · rename_i hexec
      simp only [hexec, List.cons_ne_self, reduceCtorEq]
    · rename_i hexec
      simp only [Bool.eq_false_iff.mpr hexec]

theorem forkStages_onHost (host : Host) (i : Nat) (cmds : List Command) :
    ∀ x ∈ (forkStages host i cmds).1, ∃ argv, x = .onHost argv := by
  induction cmds generalizing i with
  | nil => exact fun x hx => absurd hx List.not_mem_nil
  | cons cmd rest ih =>
      intro x hx
      unfold forkStages at hx
      split at hx
      · exact absurd hx List.not_mem_nil
      split at hx
      · exact absurd hx List.not_mem_nil
      rcases List.mem_append.mp hx with hx | hx
      · exact child_onHost host i cmd x hx
      · exact ih (i + 1) x hx

/-- The loop gets past the command at a position. -/
def GetsPast (host : Host) (i : Nat) (rest : List Command) : Prop :=
  host.fork i = true ∧ (rest ≠ [] → host.pipe i = true)

theorem forkStages_goes {host : Host} {i : Nat} {rest : List Command} (cmd : Command)
    (h : GetsPast host i rest) : (forkStages host i (cmd :: rest)).1
      = child host i cmd ++ (forkStages host (i + 1) rest).1 := by
  have hpipe : (!rest.isEmpty && !host.pipe i) = false := by
    cases rest with
    | nil => rfl
    | cons c rest =>
        rw [h.2 (List.cons_ne_nil c rest)]
        rfl
  simp only [forkStages, hpipe, h.1, Bool.not_true, Bool.false_eq_true, if_false]

/-- The first pipe or the first fork fails, and no child is forked. -/
theorem forkStages_stops {host : Host} {i : Nat} {rest : List Command} (cmd : Command)
    (h : ¬ GetsPast host i rest) : (forkStages host i (cmd :: rest)).1 = [] := by
  unfold forkStages
  split
  · rfl
  split
  · rfl
  · rename_i hpipe hfork
    refine absurd ⟨?_, fun hne => ?_⟩ h
    · simpa only [Bool.not_eq_true', Bool.not_eq_false] using hfork
    · by_contra hp
      refine hpipe ?_
      rw [Bool.eq_false_iff.mpr hp, List.isEmpty_eq_false_iff.mpr hne]
      rfl

/-- The children up to a position are forked, counting from the one at `i`. -/
def ForkedFrom (host : Host) (i n k : Nat) : Prop :=
  ∀ j ≤ k, host.fork (i + j) = true ∧ (j + 1 < n → host.pipe (i + j) = true)

theorem forkedFrom_zero (host : Host) (i : Nat) (rest : List Command) :
    ForkedFrom host i (rest.length + 1) 0 ↔ GetsPast host i rest := by
  constructor
  · intro h
    refine ⟨(h 0 (Nat.le_refl 0)).1, fun hne => (h 0 (Nat.le_refl 0)).2 ?_⟩
    exact Nat.succ_lt_succ (List.length_pos_iff.mpr hne)
  · intro h j hj
    rw [Nat.le_zero.mp hj]
    refine ⟨h.1, fun hlt => h.2 ?_⟩
    exact List.length_pos_iff.mp (Nat.lt_of_succ_lt_succ hlt)

theorem forkedFrom_succ (host : Host) (i : Nat) (rest : List Command) (k : Nat) :
    ForkedFrom host i (rest.length + 1) (k + 1) ↔
      GetsPast host i rest ∧ ForkedFrom host (i + 1) rest.length k := by
  rw [← forkedFrom_zero]
  constructor
  · intro h
    refine ⟨fun j hj => h j (Nat.le_trans hj (Nat.zero_le _)), fun j hj => ?_⟩
    have hj' := h (j + 1) (Nat.succ_le_succ hj)
    rw [show i + (j + 1) = i + 1 + j by omega] at hj'
    exact ⟨hj'.1, fun hlt => hj'.2 (Nat.succ_lt_succ hlt)⟩
  · rintro ⟨hzero, hrest⟩ j hj
    cases j with
    | zero => exact hzero 0 (Nat.le_refl 0)
    | succ j =>
        have hj' := hrest j (Nat.le_of_succ_le_succ hj)
        rw [show i + 1 + j = i + (j + 1) by omega] at hj'
        exact ⟨hj'.1, fun hlt => hj'.2 (Nat.lt_of_succ_lt_succ hlt)⟩

/-- The loop starts nothing exactly when no child it forks finds a program. -/
theorem forkStages_nil (host : Host) (i : Nat) (cmds : List Command) :
    (forkStages host i cmds).1 = [] ↔ ∀ k cmd, cmds[k]? = some cmd →
      ForkedFrom host i cmds.length k → cmd.arguments ≠ [] → host.exec (i + k) = false := by
  induction cmds generalizing i with
  | nil =>
      simp only [forkStages, List.getElem?_nil, reduceCtorEq, false_implies, implies_true]
  | cons cmd rest ih =>
      rw [List.length_cons]
      by_cases hfirst : GetsPast host i rest
      · rw [forkStages_goes cmd hfirst, List.append_eq_nil_iff, child_nil, ih]
        constructor
        · rintro ⟨hchild, hrest⟩ k c hk hforked
          cases k with
          | zero =>
              rw [List.getElem?_cons_zero, Option.some.injEq] at hk
              exact hk ▸ hchild
          | succ k =>
              rw [show i + (k + 1) = i + 1 + k by omega]
              exact hrest k c hk ((forkedFrom_succ host i rest k).mp hforked).2
        · intro h
          refine ⟨h 0 cmd rfl ((forkedFrom_zero host i rest).mpr hfirst), fun k c hk hforked => ?_⟩
          rw [show i + 1 + k = i + (k + 1) by omega]
          exact h (k + 1) c hk ((forkedFrom_succ host i rest k).mpr ⟨hfirst, hforked⟩)
      · refine ⟨fun _ k c _ hforked => absurd ?_ hfirst, fun _ => forkStages_stops cmd hfirst⟩
        -- whichever child is forked, the loop got past the first command
        exact (forkedFrom_zero host i rest).mp fun j hj =>
          hforked j (Nat.le_trans hj (Nat.zero_le k))

/-! ## The objects -/

/-- What a call starts, and that it confines it with objects of its own. -/
structure Added (f : Factories) (s t : State) (xs : List Start) : Prop where
  starts : t.starts = s.starts ++ xs
  made : s.made ≤ t.made
  confined : ∀ x ∈ xs, x.confinedBy f
  fresh : (xs.flatMap Start.objects).Nodup
  numbers : ∀ o ∈ xs.flatMap Start.objects, s.made ≤ o ∧ o < t.made

theorem added_nothing (f : Factories) {s t : State} (hs : t.starts = s.starts)
    (hm : s.made ≤ t.made) : Added f s t [] where
  starts := hs.trans (List.append_nil _).symm
  made := hm
  confined _ hx := absurd hx List.not_mem_nil
  fresh := List.nodup_nil
  numbers _ ho := absurd ho List.not_mem_nil

/-- The three objects of a call have numbers that follow one another. -/
theorem objects_of_make (f : Factories) (cmd : Command) (m : Nat) :
    let l := make f.limiter m
    let w := make f.watchdog l.2
    let p := make f.secPolicy w.2
    m ≤ p.2 ∧ (Start.isolated cmd ⟨l.1, w.1, p.1⟩).confinedBy f ∧
      (Start.isolated cmd ⟨l.1, w.1, p.1⟩).objects.Nodup ∧
      ∀ o ∈ (Start.isolated cmd ⟨l.1, w.1, p.1⟩).objects, m ≤ o ∧ o < p.2 := by
  rcases f with ⟨limiter, watchdog, secPolicy⟩
  cases limiter <;> cases watchdog <;> cases secPolicy <;>
    simp [make, Start.confinedBy, Start.objects] <;> omega

/-- `execute` starts a program in confinement, or none. -/
theorem execute_added (f : Factories) (s : State) (job : Job) (isolation : Isolation) :
    ∃ xs, Added f s (execute f s job isolation).1 xs := by
  rcases objects_of_make f job.cmd s.made with ⟨hmade, hconfined, hfresh, hnumbers⟩
  unfold execute
  split
  · exact ⟨[], added_nothing f rfl (Nat.le_refl _)⟩
  split
  · exact ⟨[], added_nothing f rfl (Nat.le_refl _)⟩
  split
  · exact ⟨[], added_nothing f rfl (Nat.le_refl _)⟩
  · simp only [isolateAndRun]
    split
    · refine ⟨[_], rfl, hmade, fun x hx => ?_, ?_, fun o ho => ?_⟩
      · rw [List.mem_singleton.mp hx]
        exact hconfined
      · rw [List.flatMap_singleton]
        exact hfresh
      · rw [List.flatMap_singleton] at ho
        exact hnumbers o ho
    · exact ⟨[], added_nothing f rfl hmade⟩

theorem inv_of_added {f : Factories} {s t : State} {xs : List Start} (hi : Inv s)
    (h : Added f s t xs) : Inv t := by
  intro o ho
  rw [h.starts, List.flatMap_append] at ho
  rcases List.mem_append.mp ho with ho | ho
  · exact Nat.lt_of_lt_of_le (hi o ho) h.made
  · exact (h.numbers o ho).2

theorem mediated_of_added {f : Factories} {s t : State} {xs : List Start} (hi : Inv s)
    (hs : Mediated f s) (h : Added f s t xs) : Mediated f t where
  confined x hx := by
    rw [h.starts] at hx
    exact (List.mem_append.mp hx).elim (hs.confined x) (h.confined x)
  fresh := by
    rw [h.starts, List.flatMap_append]
    refine hs.fresh.append h.fresh fun o ho ho' => ?_
    -- an old object has a number below those of the new ones
    exact absurd (hi o ho) (Nat.not_lt.mpr (h.numbers o ho').1)

/-! ## Runs of calls -/

/-- What a call does: it confines what it starts, or it runs a pipeline. -/
theorem step_cases {f : Factories} {s t : State} {call : Call} (h : step f s call = some t) :
    (∃ xs, Added f s t xs ∧ Complies s call) ∨
    ∃ pipeline isolation host, call = .executePipeline pipeline isolation host ∧
      1 < pipeline.length ∧
      t = { s with starts := s.starts ++ (forkStages host 0 pipeline).1 } := by
  unfold step at h
  rw [Option.ite_none_right_eq_some] at h
  replace h := h.2
  cases call with
  | execute job isolation =>
      rw [← Option.some.inj h]
      rcases execute_added f s job isolation with ⟨xs, hxs⟩
      exact .inl ⟨xs, hxs, trivial⟩
  | executePipeline pipeline isolation host =>
      rw [← Option.some.inj h]
      rcases pipeline with _ | ⟨cmd, _ | ⟨next, rest⟩⟩
      · exact .inl ⟨[], added_nothing f rfl (Nat.le_refl _), .inl (Nat.zero_le _)⟩
      · rcases execute_added f s (jobOf cmd) isolation with ⟨xs, hxs⟩
        exact .inl ⟨xs, hxs, .inl (Nat.le_refl _)⟩
      · refine .inr ⟨_, isolation, host, rfl, by simp only [List.length_cons]; omega, ?_⟩
        simp only [executePipeline]
        split
        · rfl
        split
        · rfl
        · rfl

theorem inv_step {f : Factories} {s t : State} {call : Call} (hi : Inv s)
    (h : step f s call = some t) : Inv t := by
  rcases step_cases h with ⟨xs, hxs, _⟩ | ⟨pipeline, isolation, host, rfl, _, rfl⟩
  · exact inv_of_added hi hxs
  · intro o ho
    rw [List.flatMap_append] at ho
    rcases List.mem_append.mp ho with ho | ho
    · exact hi o ho
    · rcases List.mem_flatMap.mp ho with ⟨x, hx, hox⟩
      rcases forkStages_onHost host 0 pipeline x hx with ⟨argv, rfl⟩
      exact absurd hox List.not_mem_nil

/-- A call keeps mediation complete exactly when it complies. -/
theorem mediated_step {f : Factories} {s t : State} {call : Call} (hi : Inv s)
    (hs : Mediated f s) (h : step f s call = some t) : Mediated f t ↔ Complies s call := by
  rcases step_cases h with ⟨xs, hxs, hcomplies⟩ | ⟨pipeline, isolation, host, rfl, hlen, rfl⟩
  · exact ⟨fun _ => hcomplies, fun _ => mediated_of_added hi hs hxs⟩
  · have hspares : Complies s (.executePipeline pipeline isolation host) ↔
        (forkStages host 0 pipeline).1 = [] := by
      rw [forkStages_nil, Complies, Spares, or_iff_right (Nat.not_le.mpr hlen)]
      simp only [ForkedFrom, Forked, Nat.zero_add]
    rw [hspares]
    constructor
    · intro ht
      refine List.eq_nil_iff_forall_not_mem.mpr fun x hx => ?_
      rcases forkStages_onHost host 0 pipeline x hx with ⟨argv, rfl⟩
      exact ht.confined _ (List.mem_append_right s.starts hx)
    · intro hnil
      rw [hnil, List.append_nil]
      exact hs

/-- In a run of calls, every program is started in confinement of its own
    exactly as long as every call complies. -/
theorem complete_mediation (f : Factories) (calls : List Call) :
    Lts.Always (step f) (Mediated f) init calls ↔ Lts.Along (step f) Complies init calls :=
  Lts.always_iff_along (fun _ _ _ hi _ h => inv_step hi h) (fun _ _ _ hi hs h =>
    mediated_step hi hs h) calls (fun _ ho => absurd ho List.not_mem_nil)
    ⟨fun _ hx => absurd hx List.not_mem_nil, List.nodup_nil⟩

/-- `echo hi` piped into `cat`, on a host that has both. -/
def echoIntoCat : Call := .executePipeline
  [{ executable := ascii "echo", arguments := [ascii "echo", ascii "hi"] },
    { executable := ascii "cat", arguments := [ascii "cat"] }]
  ⟨true, {}⟩ ⟨fun _ => true, fun _ => true, fun _ => true, fun _ => .exited 0⟩

/-- A pipeline of two commands runs on the host. -/
theorem pipeline_on_host :
    ¬ ∀ (f : Factories) (calls : List Call), Lts.Always (step f) (Mediated f) init calls := by
  intro h
  have hs : Mediated _ _ := Lts.always_end (h ⟨true, true, true⟩ [echoIntoCat]) rfl
  exact hs.confined (.onHost [ascii "echo", ascii "hi"]) (by decide)

end Executor

end Isolyx
