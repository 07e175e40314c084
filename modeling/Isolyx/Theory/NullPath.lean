import Isolyx.Theory.Mediation
import Isolyx.Theory.ShellLine
import Isolyx.Theory.Wiring

/-!
# Commands Without a Program

A line is cut at every `|`, and each segment becomes a command, a blank one the
command without any words. `execute` tests for that command, and so a line of
one segment runs nothing if it is blank. `executePipeline` does not: it forks a
child for every command, and the child of a blank segment calls `execvp` with
the null pointer that ends its empty vector.

Whether a line leads to such a call can be read off its segments
(`noNullPath_iff`). That no other line does is an invariant of every run; that
each line with a blank segment does takes a run that gets as far as that
segment, which is one where every call succeeds.

## Main definitions

* `NoNullPath`: Whatever is started for a line has an argument.
* `Blank`: A segment without words.

## Theorems

* `wordsFrom_eq_nil`: A segment has no words exactly if it is blank.
* `argv_of_command`: Every child is started for a command of the pipeline.
* `reaches_stage`: A pipeline gets to every position.
* `noNullPath_iff`: The lines that never lead to a null path.
-/

namespace Isolyx

namespace Pipeline

open Descriptors (Table standard)
open Executor (Factories Isolation Host)
open Invocation (cString)
open Lts
open Isolyx.Parser (parseLine parsePipeline isSpace words wordsFrom pipe)

/-- No child of the pipeline of a line calls `execvp` with a null path, and a
    single command that is left to `execute` has an argument. -/
def NoNullPath (input : Bytes) : Prop :=
  (∀ entry as s, run (step (parsePipeline input)) (init (parsePipeline input) entry) as = some s →
    ∀ c ∈ s.children, c.argv ≠ []) ∧
  (∀ f isolation host cmd confinement, .isolated cmd confinement ∈
      (Executor.executePipeline f Executor.init (parsePipeline input) isolation host).1.starts →
    cmd.arguments ≠ [])

/-- A segment of spaces. -/
def Blank (segment : Bytes) : Prop := ∀ b ∈ segment, isSpace b = true

/-! ## Blank segments -/

theorem wordsFrom_eq_nil {word s : Bytes} : wordsFrom word s = [] ↔ word = [] ∧ Blank s := by
  induction s generalizing word with
  | nil =>
      rw [wordsFrom]
      cases word with
      | nil => exact iff_of_true rfl ⟨rfl, fun _ hb => absurd hb List.not_mem_nil⟩
      | cons b word => exact iff_of_false (List.cons_ne_nil _ _) fun h => List.cons_ne_nil _ _ h.1
  | cons b s ih =>
      rw [wordsFrom, Blank, List.forall_mem_cons]
      cases hb : isSpace b with
      | true =>
          rw [if_pos rfl]
          cases word with
          | nil =>
              rw [List.isEmpty_nil, if_pos rfl, ih]
              exact ⟨fun h => ⟨rfl, rfl, h.2⟩, fun h => ⟨rfl, h.2.2⟩⟩
          | cons c word =>
              exact iff_of_false (List.cons_ne_nil _ _) fun h => List.cons_ne_nil _ _ h.1
      | false =>
          rw [if_neg Bool.false_ne_true, ih]
          refine iff_of_false (fun h => ?_) fun h => absurd h.2.1 Bool.false_ne_true
          exact List.append_ne_nil_of_right_ne_nil word (List.cons_ne_nil b []) h.1

/-- The command of a blank segment is the one without arguments. -/
theorem arguments_eq_nil {segment : Bytes} :
    (parseLine segment).arguments = [] ↔ Blank segment := by
  have hwords : words segment = [] ↔ Blank segment := by
    rw [words, wordsFrom_eq_nil]
    exact ⟨fun h => h.2, fun h => ⟨rfl, h⟩⟩
  rw [← hwords]
  cases hw : words segment with
  | nil => exact iff_of_true (by rw [parseLine, hw]) rfl
  | cons token rest =>
      rcases (Parser.parseLine_canonical_of_words hw).arguments with ⟨args, hargs, -⟩
      exact iff_of_false (hargs ▸ List.cons_ne_nil _ args) (List.cons_ne_nil token rest)

/-! ## What children are started for -/

/-- Every child is started for a command of the pipeline. -/
theorem argv_step {pipeline : List Command} {s t : State} {a : Action}
    (h : ∀ c ∈ s.children, ∃ cmd ∈ pipeline, c.argv = cmd.arguments.map cString)
    (hs : step pipeline s a = some t) :
    ∀ c ∈ t.children, ∃ cmd ∈ pipeline, c.argv = cmd.arguments.map cString := by
  cases moves_of_step hs with
  | pipes i hp => exact h
  | pipeFails i hp => exact h
  | forks i fd pid cmd opensOutput opensInput hp hc hpid =>
      intro c hcm
      rcases List.mem_append.mp hcm with hold | hnew
      · exact h c hold
      · exact ⟨cmd, List.mem_of_getElem? hc, List.mem_singleton.mp hnew ▸ rfl⟩
  | forkFails i fd opensOutput opensInput hp => exact h
  | ended k c status hk hc =>
      intro d hd
      rcases List.mem_or_eq_of_mem_set hd with hold | rfl
      · exact h d hold
      · exact h c (List.mem_of_getElem? hk)
  | waits j c status result hp hj hc =>
      intro d hd
      rcases List.mem_or_eq_of_mem_set hd with hold | rfl
      · exact h d hold
      · exact h c (List.mem_of_getElem? hj)

theorem argv_of_command {pipeline : List Command} {entry : Table Nat} {s : State}
    {as : List Action} (hr : run (step pipeline) (init pipeline entry) as = some s) :
    ∀ c ∈ s.children, ∃ cmd ∈ pipeline, c.argv = cmd.arguments.map cString := by
  refine run_invariant (P := fun u => ∀ c ∈ u.children, ∃ cmd ∈ pipeline,
    c.argv = cmd.arguments.map cString) (fun u a v hu hs => argv_step hu hs) ?_ hr
  exact fun c hc => absurd hc List.not_mem_nil

/-- A pipeline of one command or none forks nothing. -/
theorem children_of_short {pipeline : List Command} {entry : Table Nat} {s : State}
    {as : List Action} (hshort : pipeline.length ≤ 1)
    (hr : run (step pipeline) (init pipeline entry) as = some s) : s.children = [] := by
  have hphase : (init pipeline entry).phase = .returned { success := true } ∨
      (init pipeline entry).phase = .delegated := by
    match pipeline, hshort with
    | [], _ => exact .inl rfl
    | [_], _ => exact .inr rfl
  cases as with
  | nil =>
      rw [← Option.some.inj hr]
      rfl
  | cons a as =>
      -- There is no call to make, and no child to end.
      rcases run_cons.mp hr with ⟨t, ht, -⟩
      cases moves_of_step ht with
      | pipes i hp => simp [hp] at hphase
      | pipeFails i hp => simp [hp] at hphase
      | forks i fd pid cmd opensOutput opensInput hp hc hpid => simp [hp] at hphase
      | forkFails i fd opensOutput opensInput hp => simp [hp] at hphase
      | ended k c status hk hc => simp [init] at hk
      | waits j c status result hp hj hc => simp [hp] at hphase

/-! ## Getting to a command -/

/-- From the test of the loop, a pipeline gets on to the next, with one more
    child. -/
theorem stage_forks {pipeline : List Command} {s : State} {i : Nat} {cmd : Command}
    (hi : pipeline[i]? = some cmd) (hp : s.phase = phaseAt pipeline i)
    (hpids : ∀ c ∈ s.children, c.pid ≤ i) :
    ∃ as t, run (step pipeline) s as = some t ∧ t.phase = phaseAt pipeline (i + 1) ∧
      (∀ c ∈ t.children, c.pid ≤ i + 1) ∧
      ∃ c ∈ t.children, c.argv = cmd.arguments.map cString := by
  have hlt : i < pipeline.length := (List.getElem?_eq_some_iff.mp hi).1
  have hfresh : (i + 1 = 0 || s.children.any (Child.holds (i + 1))) = false := by
    simp only [Nat.succ_ne_zero, decide_false, Bool.false_or, List.any_eq_false, Child.holds,
      Bool.and_eq_true, decide_eq_true_eq, not_and]
    intro c hc _ hpid
    have := hpids c hc
    omega
  have hfork : ∀ (u : State) fd, u.phase = .forking i fd → u.children = s.children →
      step pipeline u (.fork (some (i + 1)) true true) =
        some (forked pipeline u i fd (i + 1) cmd true true) := by
    intro u fd hu hchildren
    simp only [step, hu, hi, hchildren, hfresh]
    rfl
  have hpids' : ∀ (u : State) fd, u.children = s.children →
      ∀ c ∈ (forked pipeline u i fd (i + 1) cmd true true).children, c.pid ≤ i + 1 := by
    intro u fd hchildren c hc
    rw [forked, hchildren] at hc
    rcases List.mem_append.mp hc with hold | hnew
    · exact Nat.le_succ_of_le (hpids c hold)
    · rw [List.mem_singleton.mp hnew]
  have hnew : ∀ (u : State) fd, ∃ c ∈ (forked pipeline u i fd (i + 1) cmd true true).children,
      c.argv = cmd.arguments.map cString := fun u fd =>
    ⟨_, List.mem_append_right _ (List.mem_singleton_self _), rfl⟩
  by_cases hpipe : i + 1 < pipeline.length
  · rw [phaseAt, if_pos hpipe] at hp
    have hstep : ∃ u fd, step pipeline s (.pipe true) = some u ∧ u.phase = .forking i fd ∧
        u.children = s.children := by
      simp only [step, hp]
      exact ⟨_, _, rfl, rfl, rfl⟩
    rcases hstep with ⟨u, fd, hu, hphase, hchildren⟩
    exact ⟨[.pipe true, .fork (some (i + 1)) true true], _,
      run_cons.mpr ⟨u, hu, run_cons.mpr ⟨_, hfork u fd hphase hchildren, rfl⟩⟩, rfl,
      hpids' u fd hchildren, hnew u fd⟩
  · rw [phaseAt, if_neg hpipe, if_pos hlt] at hp
    exact ⟨[.fork (some (i + 1)) true true], _, run_cons.mpr ⟨_, hfork s none hp rfl, rfl⟩, rfl,
      hpids' s none rfl, hnew s none⟩

theorem reaches_stage {pipeline : List Command} (entry : Table Nat) (hn : 2 ≤ pipeline.length)
    {i : Nat} (hi : i ≤ pipeline.length) :
    ∃ as s, run (step pipeline) (init pipeline entry) as = some s ∧ s.phase = phaseAt pipeline i ∧
      ∀ c ∈ s.children, c.pid ≤ i := by
  induction i with
  | zero =>
      refine ⟨[], _, rfl, ?_, fun c hc => absurd hc List.not_mem_nil⟩
      match pipeline, hn with
      | _ :: _ :: _, _ => rfl
  | succ i ih =>
      rcases ih (Nat.le_of_succ_le hi) with ⟨as, s, hr, hp, hpids⟩
      rcases stage_forks (List.getElem?_eq_getElem hi) hp hpids with ⟨bs, t, ht, hp', hpids', -⟩
      exact ⟨as ++ bs, t, run_append.mpr ⟨s, hr, ht⟩, hp', hpids'⟩

/-- For every command of a pipeline, there is a run that forks its child. -/
theorem reaches_child {pipeline : List Command} (entry : Table Nat) (hn : 2 ≤ pipeline.length)
    {cmd : Command} (hcmd : cmd ∈ pipeline) :
    ∃ as s, run (step pipeline) (init pipeline entry) as = some s ∧
      ∃ c ∈ s.children, c.argv = cmd.arguments.map cString := by
  rcases List.mem_iff_getElem?.mp hcmd with ⟨i, hi⟩
  have hlt := (List.getElem?_eq_some_iff.mp hi).1
  rcases reaches_stage entry hn (Nat.le_of_lt hlt) with ⟨as, s, hr, hp, hpids⟩
  rcases stage_forks hi hp hpids with ⟨bs, t, ht, -, -, hchild⟩
  exact ⟨as ++ bs, t, run_append.mpr ⟨s, hr, ht⟩, hchild⟩

/-! ## A single command -/

theorem execute_starts {f : Factories} {job : Job} {isolation : Isolation}
    {start : Executor.Start}
    (h : start ∈ (Executor.execute f Executor.init job isolation).1.starts) :
    job.cmd.isEmpty = false ∧ ∃ confinement, start = .isolated job.cmd confinement := by
  rw [Executor.execute] at h
  split_ifs at h with hempty hexit hbuiltin
  · exact absurd h List.not_mem_nil
  · exact absurd h List.not_mem_nil
  · exact absurd h List.not_mem_nil
  · refine ⟨Bool.eq_false_iff.mpr hempty, ?_⟩
    simp only [Executor.isolateAndRun] at h
    split_ifs at h
    · exact ⟨_, List.mem_singleton.mp h⟩
    · exact absurd h List.not_mem_nil

/-- What `execute` starts for a segment has an argument. -/
theorem arguments_of_execute {f : Factories} {segment : Bytes} {isolation : Isolation}
    {cmd : Command} {confinement : Executor.Confinement}
    (h : .isolated cmd confinement ∈
      (Executor.execute f Executor.init (Executor.jobOf (parseLine segment)) isolation).1.starts) :
    cmd.arguments ≠ [] := by
  rcases execute_starts h with ⟨hne, _, hstart⟩
  have hcmd : cmd = parseLine segment := (Executor.Start.isolated.inj hstart).1
  rcases Parser.parseLine_canonical segment with hempty | hcanonical
  · rw [show (Executor.jobOf (parseLine segment)).cmd = parseLine segment from rfl, hempty] at hne
    exact absurd hne (by decide)
  · rcases hcanonical.arguments with ⟨args, hargs, -⟩
    rw [hcmd, hargs]
    exact List.cons_ne_nil _ args

/-! ## The lines -/

/-- A line leads to no null path exactly if it has one segment or none, or no
    segment is blank. -/
theorem noNullPath_iff (input : Bytes) :
    NoNullPath input ↔
      (Split.segments pipe input).length ≤ 1 ∨ ∀ segment ∈ Split.segments pipe input,
        ¬ Blank segment := by
  have hlen : (parsePipeline input).length = (Split.segments pipe input).length :=
    List.length_map parseLine
  constructor
  · intro h
    by_contra hno
    rw [not_or] at hno
    rcases not_forall.mp hno.2 with ⟨segment, hseg⟩
    rcases Classical.not_imp.mp hseg with ⟨hmem, hblank⟩
    have hcmd : parseLine segment ∈ parsePipeline input := List.mem_map_of_mem hmem
    -- The child of the blank segment is reached when all goes well before it.
    rcases reaches_child standard (by omega) hcmd with ⟨as, s, hr, c, hc, hargv⟩
    rw [arguments_eq_nil.mpr (Classical.not_not.mp hblank), List.map_nil] at hargv
    exact h.1 standard as s hr c hc hargv
  · intro h
    refine ⟨fun entry as s hr c hc => ?_, fun f isolation host cmd confinement hmem => ?_⟩
    · rcases h with hshort | hnone
      · rw [children_of_short (hlen ▸ hshort) hr] at hc
        exact absurd hc List.not_mem_nil
      · rcases argv_of_command hr c hc with ⟨cmd, hcmd, hargv⟩
        rcases List.mem_map.mp hcmd with ⟨segment, hseg, rfl⟩
        rw [hargv, Ne, List.map_eq_nil_iff, arguments_eq_nil]
        exact hnone segment hseg
    · match hp : parsePipeline input, hmem with
      | [], hmem => exact absurd hmem List.not_mem_nil
      | [c], hmem =>
          have hc : c ∈ parsePipeline input := hp ▸ List.mem_singleton_self c
          rcases List.mem_map.mp hc with ⟨segment, -, rfl⟩
          exact arguments_of_execute hmem
      | c :: d :: rest, hmem =>
          have hstarts : (Executor.executePipeline f Executor.init (c :: d :: rest) isolation
              host).1.starts = (Executor.forkStages host 0 (c :: d :: rest)).1 := by
            simp only [Executor.executePipeline]
            split_ifs <;> rfl
          -- What the loop over the commands starts, it starts on the host.
          rw [hstarts] at hmem
          rcases Executor.forkStages_onHost host 0 (c :: d :: rest) _ hmem with ⟨argv, hargv⟩
          exact absurd hargv (by simp)

/-- The middle one of three commands has no program. -/
theorem null_path_of_blank : ¬ NoNullPath (ascii "a | | b") := by
  intro h
  have hrun : (run (step (parsePipeline (ascii "a | | b")))
      (init (parsePipeline (ascii "a | | b")) standard)
      [.pipe true, .fork (some 10) true true, .pipe true, .fork (some 11) true true]).map
        (fun s => s.children.map Child.argv) = some [[ascii "a"], []] := by decide
  rcases Option.map_eq_some_iff.mp hrun with ⟨s, hs, hargv⟩
  have hmem : [] ∈ s.children.map Child.argv := hargv ▸ by decide
  rcases List.mem_map.mp hmem with ⟨c, hc, hnil⟩
  exact h.1 standard _ s hs c hc hnil

end Pipeline

end Isolyx
