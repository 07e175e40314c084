import Isolyx.Library.Progress
import Isolyx.Theory.Dataflow
import Mathlib.Algebra.Order.BigOperators.Group.Finset
import Mathlib.Data.Fintype.EquivFin

/-!
# A Pipeline Comes to Its End

If each command stops on its own on the input it comes to have, the pipeline
does, whatever the capacity of the pipes and under the conditions of `Dataflow`:
it takes only boundedly many steps, and the only states in which it cannot go on
are those in which `executePipeline` has returned and all its commands have ended
(`pipeline_returns`).

That it cannot go on forever is a matter of counting: each step uses up a call of
the engine, a step of a program, or some of the bytes that are read and written,
and `progress` bounds all of these.

That nobody waits forever is where the wiring counts. A command that waits to
write waits for the next one to read. Nobody but that one has the read end, so it
runs; and as the last command never waits to write, there is a command that runs
and does not (`not_running`). It waits to read, so its pipe is empty, and the only
one that may have the write end runs; that one does not wait to write, since the
pipe is empty, so it waits to read as well, and so on, up to the first command,
which reads a file (`waits_of_stuck`).

## Main definitions

* `share`: What is left to do for a command.
* `rest`: What is left to do.
* `Returns`: The pipeline has come to its end.

## Theorems

* `rest_moves`: Every step uses some of it up.
* `waits_of_stuck`: Who waits to read waits for the one before.
* `not_running`: If nobody can go on, nobody runs.
* `pipeline_returns`: Every pipeline comes to its end.
-/

namespace Isolyx

namespace Plumbing

open Descriptors (Table)
open Descriptors.Table
open Pipeline (AllWired Between Child Desc Engine Phase atEntry phaseAt isBackground)
open Streams

variable {σ : Type} {setup : Setup σ} {pipeline : List Command} {entry : Table Nat} {s t : State σ}
variable {out : Nat → Bytes} {code : Nat → UInt8} {steps : Nat → Nat}

/-! ## What is left to do -/

/-- The calls that the engine has still to make. -/
def callsLeft (pipeline : List Command) : Phase → Nat
  | .piping i => 3 * pipeline.length - 2 * i
  | .forking i _ => 3 * pipeline.length - 2 * i - 1
  | .waiting j _ => pipeline.length - j
  | .returned _ | .delegated => 0

/-- What is left to do for a command: to end, to see the end of its input, the
    steps of its program, and the bytes to read and to write. -/
def share (setup : Setup σ) (pipeline : List Command) (entry : Table Nat) (out : Nat → Bytes)
    (steps : Nat → Nat) (s : State σ) (i : Nat) : Nat :=
  (if endOf s.exec i = none then 1 else 0) + (!(s.procs i).sawEnd).toNat
    + (steps i - (s.procs i).ticks)
    + ((given setup pipeline entry out i).length - (s.procs i).received.length)
    + ((out i).length - (s.procs i).written.length)

/-- What is left to do. -/
def rest (setup : Setup σ) (pipeline : List Command) (entry : Table Nat) (out : Nat → Bytes)
    (steps : Nat → Nat) (s : State σ) : Nat :=
  callsLeft pipeline s.exec.phase
    + ∑ i ∈ Finset.range pipeline.length, share setup pipeline entry out steps s i

theorem callsLeft_phaseAt {i : Nat} (hi : i ≤ pipeline.length) (hpos : 0 < pipeline.length) :
    callsLeft pipeline (phaseAt pipeline i) ≤ 3 * pipeline.length - 2 * i := by
  rw [phaseAt]
  split
  · exact Nat.le_refl _
  · split
    · exact Nat.sub_le _ _
    · split
      · exact Nat.zero_le _
      · rw [callsLeft]
        omega

variable (setup pipeline entry out steps) in
theorem rest_init (hn : 2 ≤ pipeline.length) :
    rest setup pipeline entry out steps (init setup pipeline entry)
      ≤ 3 * pipeline.length + ∑ i ∈ Finset.range pipeline.length,
        (2 + steps i + (given setup pipeline entry out i).length + (out i).length) := by
  have hphase : (init setup pipeline entry).exec.phase = phaseAt pipeline 0 := by
    match pipeline, hn with
    | _ :: _ :: _, _ => rfl
  have hshare : ∀ i, share setup pipeline entry out steps (init setup pipeline entry) i
      = 2 + steps i + (given setup pipeline entry out i).length + (out i).length := fun _ => rfl
  rw [rest, hphase]
  simp only [hshare]
  exact Nat.add_le_add_right (callsLeft_phaseAt (Nat.zero_le _) (by omega)) _

theorem callsLeft_call {e f : Pipeline.State} {a : Pipeline.Action} (he : Engine pipeline entry e)
    (ha : isCall a = true) (h : Pipeline.step pipeline e a = some f) :
    callsLeft pipeline f.phase < callsLeft pipeline e.phase := by
  cases Pipeline.moves_of_step h with
  | pipes i hp | pipeFails i hp =>
      simp only [Engine, hp] at he
      simp only [hp, callsLeft]
      omega
  | forks i fd pid cmd opensOutput opensInput hp hc hpid =>
      have hi : i < pipeline.length := (List.getElem?_eq_some_iff.mp hc).1
      have hle : callsLeft pipeline (phaseAt pipeline (i + 1))
          ≤ 3 * pipeline.length - 2 * (i + 1) := callsLeft_phaseAt hi (by omega)
      have hforking : callsLeft pipeline (.forking i fd) = 3 * pipeline.length - 2 * i - 1 := rfl
      rw [hp, hforking, Pipeline.forked]
      dsimp only
      omega
  | forkFails i fd opensOutput opensInput hp =>
      have hi : i < pipeline.length := by
        cases fd with
        | none =>
            simp only [Engine, hp] at he
            omega
        | some ends =>
            simp only [Engine, hp] at he
            omega
      simp only [hp, callsLeft]
      omega
  | ended => exact absurd ha Bool.false_ne_true
  | waits j c status result hp hj hc =>
      simp only [Engine, hp] at he
      simp only [Pipeline.reap, hp]
      split
      · simp only [callsLeft]
        omega
      · simp only [callsLeft]
        omega

/-- A step of one child. -/
theorem rest_lt {i : Nat} (hlt : i < pipeline.length) (hphase : t.exec.phase = s.exec.phase)
    (hothers : ∀ x, x ≠ i → endOf t.exec x = endOf s.exec x ∧ t.procs x = s.procs x)
    (hless : share setup pipeline entry out steps t i < share setup pipeline entry out steps s i) :
    rest setup pipeline entry out steps t < rest setup pipeline entry out steps s := by
  rw [rest, rest, hphase]
  have hmem : i ∈ Finset.range pipeline.length := Finset.mem_range.mpr hlt
  refine Nat.add_lt_add_left (Finset.sum_lt_sum (fun x _ => ?_) ⟨i, hmem, hless⟩) _
  by_cases hx : x = i
  · exact hx ▸ Nat.le_of_lt hless
  · rw [share, share, (hothers x hx).1, (hothers x hx).2]

/-- A step of one process. -/
theorem rest_setProc {i : Nat} {p : Process UInt8 σ} {pipes : Nat → Bytes}
    (hlt : i < pipeline.length)
    (hless : (!p.sawEnd).toNat + (steps i - p.ticks)
        + ((given setup pipeline entry out i).length - p.received.length)
        + ((out i).length - p.written.length)
      < (!(s.procs i).sawEnd).toNat + (steps i - (s.procs i).ticks)
        + ((given setup pipeline entry out i).length - (s.procs i).received.length)
        + ((out i).length - (s.procs i).written.length)) :
    rest setup pipeline entry out steps ⟨s.exec, Function.update s.procs i p, pipes⟩
      < rest setup pipeline entry out steps s := by
  refine rest_lt hlt rfl (fun x hx => ⟨rfl, Function.update_of_ne hx ..⟩) ?_
  rw [share, share]
  simp only [Function.update_self]
  omega

/-- A child ends. -/
theorem rest_ends {i : Nat} {c : Child} {status : Lifecycle.WaitStatus} (hc : running s i = some c)
    (hlt : i < pipeline.length) :
    rest setup pipeline entry out steps { s with exec := { s.exec with
        children := s.exec.children.set i { c with status := .zombie status } } }
      < rest setup pipeline entry out steps s := by
  have hget := (List.getElem?_eq_some_iff.mp (running_eq_some.mp hc).1).1
  refine rest_lt hlt rfl (fun x hx => ⟨?_, rfl⟩) ?_
  · simp only [endOf, List.getElem?_set_ne (Ne.symm hx)]
  · have hold := endOf_of_running hc
    rw [share, share, hold]
    simp only [endOf, List.getElem?_set_self hget, Option.bind_some, reduceCtorEq, if_false,
      if_true]
    omega

theorem lt_of_running (he : Engine pipeline entry s.exec) {i : Nat} {c : Child}
    (hc : running s i = some c) : i < pipeline.length :=
  Nat.lt_of_lt_of_le (List.getElem?_eq_some_iff.mp (running_eq_some.mp hc).1).1
    (length_children he)

theorem pipes_take (k : Nat) (d : Desc) :
    (take s k d).exec = s.exec ∧ (take s k d).procs = s.procs := by
  cases d with
  | _ => exact ⟨rfl, rfl⟩

theorem pipes_put (bytes : Bytes) (d : Desc) :
    (put s bytes d).exec = s.exec ∧ (put s bytes d).procs = s.procs := by
  cases d with
  | _ => exact ⟨rfl, rfl⟩

/-- Every step uses up some of what is left. -/
theorem rest_moves (hm : Meaning setup pipeline entry out code steps)
    (hi : Inv setup pipeline entry s) (ht : Inv setup pipeline entry t) {a : Action}
    (h : Moves setup pipeline s a t) :
    rest setup pipeline entry out steps t < rest setup pipeline entry out steps s := by
  cases h with
  | calls a e hcall he =>
      have hsum : ∀ i, share setup pipeline entry out steps { s with exec := e } i
          = share setup pipeline entry out steps s i := by
        intro i
        rw [share, share, endOf_call hcall he]
      simp only [rest, hsum]
      exact Nat.add_lt_add_right (callsLeft_call hi.engine hcall he) _
  | reads i k c d hc hd hk =>
      have hlt := lt_of_running hi.engine hc
      have hbound := (progress ht hm hlt).1.1.length_le
      simp only [setProc, Function.update_self, Process.received_fill, List.length_append,
        List.length_take] at hbound
      rw [setProc, (pipes_take k d).1, (pipes_take k d).2]
      refine rest_setProc hlt ?_
      simp only [Process.received_fill, Process.written_fill, Process.sawEnd_fill,
        Process.ticks_fill, List.length_append, List.length_take]
      omega
  | readsEnd i c d hc hd hend hnew =>
      refine rest_setProc (lt_of_running hi.engine hc) ?_
      simp only [Process.received_see, Process.written_see, Process.sawEnd_see, Process.ticks_see,
        hnew, Bool.not_true, Bool.not_false, Bool.toNat_true, Bool.toNat_false]
      omega
  | works i c p hc hp =>
      have hlt := lt_of_running hi.engine hc
      have hbound := (progress ht hm hlt).2.1
      rcases Process.tick_spec hp with ⟨hreceived, hwritten, hend, hticks⟩
      simp only [setProc, Function.update_self, hticks] at hbound
      refine rest_setProc hlt ?_
      rw [hreceived, hwritten, hend, hticks]
      omega
  | writes i k c d hc hd hk hroom =>
      have hlt := lt_of_running hi.engine hc
      have hbound := ((List.prefix_append _ _).trans (progress ht hm hlt).2.2.1).length_le
      simp only [setProc, Function.update_self, Process.written_flush, List.length_append,
        List.length_take] at hbound
      rw [setProc, (pipes_put _ d).1, (pipes_put _ d).2]
      refine rest_setProc hlt ?_
      simp only [Process.received_flush, Process.written_flush, Process.sawEnd_flush,
        Process.ticks_flush, List.length_append, List.length_take]
      omega
  | exits i c status hc hstop hdone => exact rest_ends hc (lt_of_running hi.engine hc)
  | breaks i c d hc hd hleft hbroken => exact rest_ends hc (lt_of_running hi.engine hc)

/-! ## Who waits for whom -/

/-- None of the steps is possible that do not fail. -/
def Stuck (setup : Setup σ) (pipeline : List Command) (s : State σ) : Prop :=
  Lts.Stuck (step setup pipeline) (fun a => a.succeeds = true) s

theorem openIn_iff {t : Table Desc} {d : Desc} : openIn d t = true ↔ ∃ m, t.lookup m = some d := by
  simp only [openIn, List.any_eq_true, decide_eq_true_eq, lookup_eq_some, Prod.exists]
  constructor
  · rintro ⟨m, d', hmem, rfl⟩
    exact ⟨m, hmem⟩
  · rintro ⟨m, hmem⟩
    exact ⟨m, d, hmem, rfl⟩

/-- The engine has nothing open but what was open before. -/
theorem not_openIn_atEntry {d : Desc} (hd : ∀ f, d ≠ .prior f) :
    openIn d (atEntry entry) = false := by
  rw [Bool.eq_false_iff, ne_eq, openIn_iff]
  rintro ⟨m, hm⟩
  rw [Pipeline.lookup_atEntry, Option.map_eq_some_iff] at hm
  rcases hm with ⟨f, _, rfl⟩
  exact hd f rfl

/-- The read end of a pipe is the standard input of the child after it. -/
theorem wired_readEnd (hi : Inv setup pipeline entry s) {i j m : Nat} {c : Child}
    (hc : s.exec.children[j]? = some c) (hm : c.table.lookup m = some (.readEnd i)) :
    j = i + 1 ∧ readsPipe pipeline j = true := by
  have hprior : ∀ k, (entry.lookup k).map Desc.prior ≠ some (.readEnd i) := by
    intro k h
    rcases Option.map_eq_some_iff.mp h with ⟨f, _, hf⟩
    simp only [reduceCtorEq] at hf
  rcases hi.wired j c hc with ⟨cmd, _, hwired⟩
  match m with
  | 0 =>
      rcases stdin_spec setup hi.wired hc hm with ⟨hreads, heq⟩ | ⟨_, hno, _⟩
      · have hpos := lt_of_readsPipe hreads
        rw [Desc.readEnd.injEq] at heq
        exact ⟨by omega, hreads⟩
      · exact absurd rfl (hno i)
  | 1 =>
      rw [hwired.output] at hm
      split at hm
      · simp only [Option.some.injEq, reduceCtorEq] at hm
      · split at hm
        · simp only [Option.some.injEq, reduceCtorEq] at hm
        · exact absurd hm (hprior 1)
  | k + 2 =>
      rw [hwired.others (k + 2) (by omega)] at hm
      exact absurd hm (hprior (k + 2))

/-- A process id that no child has. -/
theorem exists_pid (children : List Child) :
    ∃ pid, pid ≠ 0 ∧ children.any (Child.holds pid) = false := by
  rcases Infinite.exists_notMem_finset (0 :: children.map Child.pid).toFinset with ⟨pid, hpid⟩
  rw [List.mem_toFinset, List.mem_cons, not_or] at hpid
  refine ⟨pid, hpid.1, ?_⟩
  rw [List.any_eq_false]
  intro c hc h
  rw [Child.holds, Bool.and_eq_true, decide_eq_true_eq] at h
  exact hpid.2 (List.mem_map.mpr ⟨c, hc, h.2⟩)

/-- If nothing is possible, the engine has started all commands. -/
theorem started_of_stuck (hi : Inv setup pipeline entry s) (h : Stuck setup pipeline s) :
    s.exec.children.length = pipeline.length ∧ s.exec.table = atEntry entry ∧
      ((∃ j result, s.exec.phase = .waiting j result) ∨
        ∃ result, s.exec.phase = .returned result) := by
  have hstep : ∀ {a e}, isCall a = true → a.made = true →
      a.opens = true → Pipeline.step pipeline s.exec a = some e → False := by
    intro a e hcall hmade hopens he
    have hnone := h (.call a) (by simp only [Action.succeeds, hmade, hopens, Bool.and_self])
    simp only [step, hcall, he, if_true, Option.map_some, reduceCtorEq] at hnone
  have he := hi.engine
  cases hp : s.exec.phase with
  | piping i =>
      have hpipe : ∃ e, Pipeline.step pipeline s.exec (.pipe true) = some e := by
        simp only [Pipeline.step, hp]
        exact ⟨_, rfl⟩
      rcases hpipe with ⟨e, hpipe⟩
      exact (hstep rfl rfl rfl hpipe).elim
  | forking i fd =>
      have hlt : i < pipeline.length := by
        cases fd with
        | none =>
            simp only [Engine, hp] at he
            omega
        | some ends =>
            simp only [Engine, hp] at he
            omega
      rcases exists_pid s.exec.children with ⟨pid, hzero, hfree⟩
      have hfork : Pipeline.step pipeline s.exec (.fork (some pid) true true)
          = some (Pipeline.forked pipeline s.exec i fd pid pipeline[i] true true) := by
        simp only [Pipeline.step, hp, List.getElem?_eq_getElem hlt, hfree, hzero, decide_false,
          Bool.or_self, Bool.false_eq_true, if_false]
      exact (hstep rfl rfl rfl hfork).elim
  | waiting j result =>
      simp only [Engine, hp] at he
      exact ⟨he.2.1, he.2.2.2, .inl ⟨j, result, rfl⟩⟩
  | returned result =>
      simp only [Engine, hp] at he
      exact ⟨he.1, he.2.1, .inr ⟨result, rfl⟩⟩
  | delegated =>
      simp only [Engine, hp] at he

/-- Who has an end of a pipe then is a child that runs. -/
theorem holder_of_stuck (hi : Inv setup pipeline entry s) (h : Stuck setup pipeline s) {d : Desc}
    (hd : ∀ f, d ≠ .prior f) (hheld : held s d = true) :
    ∃ j c m, running s j = some c ∧ c.table.lookup m = some d := by
  rw [held, (started_of_stuck hi h).2.1, not_openIn_atEntry hd, Bool.false_or,
    List.any_eq_true] at hheld
  rcases hheld with ⟨c, hmem, hc⟩
  rw [isRunning, Bool.and_eq_true, decide_eq_true_eq, openIn_iff] at hc
  rcases List.getElem?_of_mem hmem with ⟨j, hj⟩
  rcases hc.2 with ⟨m, hm⟩
  exact ⟨j, c, m, running_eq_some.mpr ⟨hj, hc.1⟩, hm⟩

/-- A child that runs has its standard input and output. -/
theorem standard_of_running (hi : Inv setup pipeline entry s) (h0 : entry.lookup 0 ≠ none)
    (h1 : entry.lookup 1 ≠ none) {i : Nat} {c : Child} (hc : running s i = some c) :
    (∃ d, c.table.lookup 0 = some d) ∧ ∃ d, c.table.lookup 1 = some d := by
  rcases hi.wired i c (running_eq_some.mp hc).1 with ⟨cmd, _, hwired⟩
  rw [hwired.input, hwired.output]
  rcases Option.ne_none_iff_exists'.mp h0 with ⟨f, hf⟩
  rcases Option.ne_none_iff_exists'.mp h1 with ⟨g, hg⟩
  constructor
  · rw [hf]
    split
    · exact ⟨_, rfl⟩
    · split
      · exact ⟨_, rfl⟩
      · exact ⟨_, rfl⟩
  · rw [hg]
    split
    · exact ⟨_, rfl⟩
    · split
      · exact ⟨_, rfl⟩
      · exact ⟨_, rfl⟩

/-- Who has something to write waits for room in a pipe that is read. -/
theorem full_of_stuck (hi : Inv setup pipeline entry s) (h : Stuck setup pipeline s)
    (h0 : entry.lookup 0 ≠ none) (h1 : entry.lookup 1 ≠ none) {i : Nat} {c : Child}
    (hc : running s i = some c) (hleft : (s.procs i).unwritten ≠ []) :
    held s (.readEnd i) = true ∧ setup.capacity ≤ (s.pipes i).length := by
  rcases (standard_of_running hi h0 h1 hc).2 with ⟨d, hd⟩
  have hlen : 1 ≤ (s.procs i).unwritten.length := List.length_pos_iff.mpr hleft
  have hwrite := h (.write i 1) rfl
  have hsignal := h (.sigpipe i) rfl
  simp only [step, hc, Option.bind_some, hd, hlen, Nat.one_pos, and_self, true_and,
    ite_eq_right_iff, reduceCtorEq, imp_false, Bool.not_eq_true, hleft, ne_eq,
    not_false_eq_true] at hwrite hsignal
  rcases stdout_spec hi.wired (running_eq_some.mp hc).1 hd with ⟨_, rfl⟩ | ⟨_, hfile⟩
  · rw [accepts, Bool.and_eq_false_iff, decide_eq_false_iff_not] at hwrite
    have hheld : held s (.readEnd i) = true := by
      by_contra hno
      rw [Bool.not_eq_true] at hno
      -- the signal would be raised
      have hend := running_eq_some.mp hc
      simp only [broken, hno, Bool.not_false, endChild, Pipeline.step, hend.1, hend.2,
        Option.map_some, reduceCtorEq, imp_false, not_true_eq_false] at hsignal
    refine ⟨hheld, ?_⟩
    rcases hwrite with hroom | hno
    · omega
    · exact absurd (hheld.symm.trans hno) Bool.false_ne_true.symm
  · cases d with
    | writeEnd j => exact absurd rfl (hfile j)
    | _ => exact absurd hwrite Bool.false_ne_true.symm

/-- Who has nothing to write waits for the one before to write. -/
theorem waits_of_stuck (hi : Inv setup pipeline entry s) (h : Stuck setup pipeline s)
    (h0 : entry.lookup 0 ≠ none) (h1 : entry.lookup 1 ≠ none) {i : Nat} {c : Child}
    (hc : running s i = some c) (hleft : (s.procs i).unwritten = []) :
    0 < i ∧ s.pipes (i - 1) = [] ∧ ∃ b, running s (i - 1) = some b := by
  have htick : (s.procs i).tick setup.prog = none := by
    have hwork := h (.work i) rfl
    simp only [step, hc, Option.map_eq_none_iff] at hwork
    exact hwork
  have hopen : (s.procs i).sawEnd = false := by
    have hend := running_eq_some.mp hc
    have hexit := h (.exit i) rfl
    unfold Process.tick at htick
    split at htick
    · split at htick
      · simp only [reduceCtorEq] at htick
      · simpa only [ite_eq_right_iff, reduceCtorEq, imp_false, Bool.not_eq_true] using htick
    · simp only [reduceCtorEq] at htick
    · rename_i status hstop
      simp only [step, hstop, hleft, if_true, endChild, Pipeline.step, hend.1, hend.2,
        Option.map_some, reduceCtorEq] at hexit
  rcases (standard_of_running hi h0 h1 hc).1 with ⟨d, hd⟩
  have hempty : available setup s i d = [] := by
    by_contra hsome
    have hlen : 1 ≤ (available setup s i d).length := List.length_pos_iff.mpr hsome
    have hread := h (.read i 1) rfl
    simp only [step, hc, Option.bind_some, hd, hlen, Nat.one_pos, and_self, if_true,
      reduceCtorEq] at hread
  have hmore : ended setup s i d = false := by
    have hend := h (.readEnd i) rfl
    simp only [step, hc, Option.bind_some, hd, hopen, and_true, ite_eq_right_iff, reduceCtorEq,
      imp_false, Bool.not_eq_true] at hend
    exact hend
  rcases stdin_spec setup hi.wired (running_eq_some.mp hc).1 hd with
    ⟨hreads, rfl⟩ | ⟨_, hfile, _⟩
  · have hpipe : s.pipes (i - 1) = [] := hempty
    simp only [ended, hpipe, List.isEmpty_nil, Bool.true_and, Bool.not_eq_false'] at hmore
    rcases holder_of_stuck hi h (fun f => by simp only [ne_eq, reduceCtorEq, not_false_eq_true])
      hmore with ⟨j, b, m, hb, hm⟩
    rcases hi.wired j b (running_eq_some.mp hb).1 with ⟨cmd, _, hwired⟩
    obtain rfl := (Pipeline.wired_writeEnd hwired hm).1
    exact ⟨lt_of_readsPipe hreads, hpipe, b, hb⟩
  · rw [ended_of_file hfile, hempty] at hmore
    exact absurd hmore Bool.false_ne_true.symm

/-- A child that runs waits to write, by induction down to the first. -/
theorem writes_of_stuck (hi : Inv setup pipeline entry s) (h : Stuck setup pipeline s)
    (h0 : entry.lookup 0 ≠ none) (h1 : entry.lookup 1 ≠ none) {i : Nat} {c : Child}
    (hc : running s i = some c) : (s.procs i).unwritten ≠ [] := by
  induction i using Nat.strongRecOn generalizing c with
  | ind i ih =>
      intro hleft
      rcases waits_of_stuck hi h h0 h1 hc hleft with ⟨hpos, hempty, b, hb⟩
      -- the one before waits to write, but its pipe is empty
      have hfull := (full_of_stuck hi h h0 h1 hb (ih (i - 1) (by omega) hb)).2
      rw [hempty, List.length_nil] at hfull
      have hcapacity := setup.capacity_pos
      omega

/-- If nobody can go on, nobody runs, by induction up to the last. -/
theorem not_running (hi : Inv setup pipeline entry s) (h : Stuck setup pipeline s)
    (h0 : entry.lookup 0 ≠ none) (h1 : entry.lookup 1 ≠ none) {k i : Nat}
    (hk : i + k = pipeline.length) (c : Child) : running s i ≠ some c := by
  induction k generalizing i c with
  | zero =>
      intro hc
      have hlt := lt_of_running hi.engine hc
      omega
  | succ k ih =>
      intro hc
      have hfull := full_of_stuck hi h h0 h1 hc (writes_of_stuck hi h h0 h1 hc)
      rcases holder_of_stuck hi h (fun f => by simp only [ne_eq, reduceCtorEq, not_false_eq_true])
        hfull.1 with ⟨j, b, m, hb, hm⟩
      obtain rfl := (wired_readEnd hi (running_eq_some.mp hb).1 hm).1
      exact ih (by omega) b hb

/-- The pipeline has come to its end. -/
structure Returns (pipeline : List Command) (s : State σ) : Prop where
  returned : ∃ result, s.exec.phase = .returned result
  ended : ∀ i < pipeline.length, endOf s.exec i ≠ none

theorem returns_of_stuck (hi : Inv setup pipeline entry s) (h : Stuck setup pipeline s)
    (h0 : entry.lookup 0 ≠ none) (h1 : entry.lookup 1 ≠ none) : Returns pipeline s := by
  rcases started_of_stuck hi h with ⟨hlen, _, hphase⟩
  have hended : ∀ i < pipeline.length, endOf s.exec i ≠ none := by
    intro i hlt
    rcases running_or_ended (hlen ▸ hlt) with ⟨c, hc⟩ | hover
    · exact absurd hc (not_running hi h h0 h1 (Nat.add_sub_cancel' (Nat.le_of_lt hlt)) c)
    · exact hover
  rcases hphase with ⟨j, result, hp⟩ | hreturned
  · -- the wait that the engine is in would return
    have he := hi.engine
    simp only [Engine, hp] at he
    rcases he with ⟨hlt, _, hreaped, _⟩
    have hget := List.getElem?_eq_getElem (hlen ▸ hlt)
    have hwait := h (.call .waitpid) rfl
    cases hstatus : s.exec.children[j].status with
    | running =>
        exact absurd (endOf_of_running (running_eq_some.mpr ⟨hget, hstatus⟩)) (hended j hlt)
    | zombie status =>
        simp only [step, isCall, if_true, Pipeline.step, hp, hget, hstatus, Option.map_some,
          reduceCtorEq] at hwait
    | reaped status =>
        have hnot := (hreaped j _ hget).mp (by rw [Child.isReaped, hstatus])
        exact absurd hnot (Nat.lt_irrefl j)
  · exact ⟨hreturned, hended⟩

/-- When it has come to its end, nothing is left to do. -/
theorem stuck_of_returns (he : Engine pipeline entry s.exec) (h : Returns pipeline s) :
    Stuck setup pipeline s := by
  rcases h.returned with ⟨result, hp⟩
  have hlen : s.exec.children.length = pipeline.length := by
    simp only [Engine, hp] at he
    exact he.1
  have hnone : ∀ i c, running s i ≠ some c := fun i c hc =>
    h.ended i (lt_of_running he hc) (endOf_of_running hc)
  intro a _
  refine Option.eq_none_iff_forall_ne_some.mpr fun t ht => ?_
  cases moves_of_step ht with
  | calls a e hcall hstep =>
      cases Pipeline.moves_of_step hstep with
      | ended => exact absurd hcall Bool.false_ne_true
      | _ =>
          simp only [hp, reduceCtorEq] at *
  | reads i k c | readsEnd i c | works i c | writes i k c | exits i c | breaks i c =>
      exact hnone i c ‹_›

/-- For two commands or more whose programs stop on the inputs they come to
    have, called with the descriptors 0 to 2 open, any capacity of the pipes and
    any interleaving: a pipeline takes only so many steps, it can go on until it
    has returned and all its commands have ended, and before that there is
    always something that can go on. -/
theorem pipeline_returns (setup : Setup σ) (pipeline : List Command) (entry : Table Nat)
    (hn : 2 ≤ pipeline.length) (hopen : ∀ m < 3, entry.lookup m ≠ none) (out : Nat → Bytes)
    (code : Nat → UInt8) (steps : Nat → Nat) (hm : Meaning setup pipeline entry out code steps)
    (actions : List Action) (ha : ∀ a ∈ actions, a.succeeds = true) (s : State σ)
    (h : Lts.run (step setup pipeline) (init setup pipeline entry) actions = some s) :
    actions.length ≤ 3 * pipeline.length + ∑ i ∈ Finset.range pipeline.length,
      (2 + steps i + (given setup pipeline entry out i).length + (out i).length) ∧
    (Stuck setup pipeline s ↔ Returns pipeline s) ∧
    ∃ more t, (∀ a ∈ more, a.succeeds = true) ∧ Lts.run (step setup pipeline) s more = some t ∧
      Returns pipeline t := by
  have h0 := hopen 0 (by decide)
  have h1 := hopen 1 (by decide)
  have hi := inv_run hn h0 h1 ha h
  have hmove : ∀ u (a : Action) v, Inv setup pipeline entry u → a.succeeds = true →
      step setup pipeline u a = some v → Inv setup pipeline entry v ∧
        rest setup pipeline entry out steps v < rest setup pipeline entry out steps u := by
    intro u a v hu ha hv
    have hv' := inv_moves hu h0 h1 ha (moves_of_step hv)
    exact ⟨hv', rest_moves hm hu hv' (moves_of_step hv)⟩
  refine ⟨?_, ⟨fun hstuck => returns_of_stuck hi hstuck h0 h1, stuck_of_returns hi.engine⟩, ?_⟩
  · have hall : Lts.Always (step setup pipeline) (Inv setup pipeline entry)
        (init setup pipeline entry) actions :=
      Lts.always_of_along (G := fun _ a => a.succeeds = true)
        (fun u a v hu ha hv => (hmove u a v hu ha hv).1) actions (inv_init hn)
        (Lts.along_of_forall fun a hmem _ => ha a hmem)
    have hle := Lts.length_add_le_of_always (f := rest setup pipeline entry out steps)
      (fun u a v hu hv ht => rest_moves hm hu hv (moves_of_step ht)) hall h
    have hstart := rest_init setup pipeline entry out steps hn
    omega
  · rcases Lts.exists_stuck hmove hi with ⟨more, t, hall, hr, hstuck⟩
    have hend : Inv setup pipeline entry t :=
      Lts.end_of_along (G := fun _ a => a.succeeds = true)
        (fun u a v hu ha hv => (hmove u a v hu ha hv).1) hi
        (Lts.along_of_forall fun a hmem _ => hall a hmem) hr
    exact ⟨more, t, hall, hr, returns_of_stuck hend hstuck h0 h1⟩

/-- Two commands and a pipe of one byte, after the first of them was forked. -/
theorem pipeline_returns_first : ∃ s t : State (Nat × UInt8), ∃ more,
    s.exec.phase = .forking 1 none ∧
      Lts.run (step firstByte Pipeline.pair) s more = some t ∧ Returns Pipeline.pair t := by
  let actions : List Action := [.call (.pipe true), .call (.fork (some 10) true true), .work 0]
  have hrun : (Lts.run (step firstByte Pipeline.pair)
      (init firstByte Pipeline.pair Descriptors.standard) actions).map (fun s => s.exec.phase)
        = some (.forking 1 none) := by decide +kernel
  rcases Option.map_eq_some_iff.mp hrun with ⟨s, hs, hphase⟩
  rcases (pipeline_returns firstByte Pipeline.pair Descriptors.standard (by decide) (by decide) _ _
    _ meaning_firstByte actions (by decide) s hs).2.2 with ⟨more, t, _, hr, ht⟩
  exact ⟨s, t, more, hphase, hr, ht⟩

end Plumbing

end Isolyx
