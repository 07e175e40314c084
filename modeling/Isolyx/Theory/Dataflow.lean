import Isolyx.Core.Plumbing
import Isolyx.Theory.Wiring

/-!
# What a Pipeline Computes

`a | b | c` is the composition of what the three commands do, each on its own.
The commands run at the same time, the engine still forks some while others
write, a pipe holds only so much, and every system call may read or write any
part of what it could; a command may also exit before it has read everything,
and then the one before it is killed by its next write. None of this can be seen
in what comes out of the last command, nor in its status (`pipeline_composes`).

A command gets its input from the command before it, and it gets all of it: only
when that one has exited by itself does `read` return 0, since as long as it runs
it has the write end, and if it was killed by `SIGPIPE`, then because nobody reads
any more (`Inv.seen`, `Inv.finished`). With what a program does on a part of its input
(`OnTrack.bound`) the rest is an induction along the pipeline (`progress`).

A redirection in the middle of a pipeline takes the place of the pipe. The next
command finds its input empty, and the one before is killed if it writes.

The pipeline has two commands or more, the descriptors 0 to 2 are open at the
call, and no other thread creates processes meanwhile, which would inherit the
ends of the pipes.

## Main definitions

* `readsPipe`, `writesPipe`: Which commands use the pipes.
* `given`: What a command has to read.
* `Meaning`: What the commands do, each on its own.
* `endOf`: How a child ended.
* `Inv`: What every step preserves.
* `Composes`: The pipeline does what its commands do one after the other.

## Theorems

* `inv_moves`: Every step preserves the invariant.
* `progress`: How far a command can have come.
* `pipeline_composes`: In every run, a pipeline is the composition of its commands.
-/

namespace Isolyx

namespace Plumbing

open Descriptors (Table)
open Descriptors.Table
open Invocation (cString)
open Lifecycle (WaitStatus resultOf)
open Pipeline (AllWired Between Child ChildStatus Desc Engine Wired isBackground)
open Streams

variable {σ : Type} {setup : Setup σ} {pipeline : List Command} {entry : Table Nat} {s t : State σ}

/-! ## Who reads and writes what -/

/-- The command at a position reads from the pipe before it. -/
def readsPipe (pipeline : List Command) (i : Nat) : Bool :=
  match pipeline[i]? with
  | none => false
  | some cmd => decide (0 < i) && cmd.redirectInput.isEmpty

/-- The command at a position writes to the pipe after it. -/
def writesPipe (pipeline : List Command) (i : Nat) : Bool :=
  match pipeline[i]? with
  | none => false
  | some cmd => decide (i + 1 < pipeline.length) && cmd.redirectOutput.isEmpty

/-- The file that a command reads, if it does not read from a pipe. -/
def fileOf (setup : Setup σ) (pipeline : List Command) (entry : Table Nat) (i : Nat) : Bytes :=
  match pipeline[i]? with
  | none => []
  | some cmd =>
      if cmd.redirectInput.isEmpty then
        ((entry.lookup 0).map fun f => setup.content (.prior f)).getD []
      else setup.content (.input (cString cmd.redirectInput))

/-- What a command has to read, if the commands write this. -/
def given (setup : Setup σ) (pipeline : List Command) (entry : Table Nat) (out : Nat → Bytes)
    (i : Nat) : Bytes :=
  if readsPipe pipeline i then if writesPipe pipeline (i - 1) then out (i - 1) else []
  else fileOf setup pipeline entry i

theorem lt_of_readsPipe {i : Nat} (h : readsPipe pipeline i = true) : 0 < i := by
  rw [readsPipe] at h
  split at h
  · exact absurd h Bool.false_ne_true
  · rw [Bool.and_eq_true, decide_eq_true_eq] at h
    exact h.1

theorem lt_of_writesPipe {i : Nat} (h : writesPipe pipeline i = true) :
    i + 1 < pipeline.length := by
  rw [writesPipe] at h
  split at h
  · exact absurd h Bool.false_ne_true
  · rw [Bool.and_eq_true, decide_eq_true_eq] at h
    exact h.1

variable (setup) in
/-- The standard input of a child is the pipe, or a file. -/
theorem stdin_spec {i : Nat} {c : Child} {d : Desc} (hw : AllWired pipeline entry s.exec)
    (hc : s.exec.children[i]? = some c) (hd : c.table.lookup 0 = some d) :
    (readsPipe pipeline i = true ∧ d = .readEnd (i - 1)) ∨
      (readsPipe pipeline i = false ∧ (∀ j, d ≠ .readEnd j) ∧
        setup.content d = fileOf setup pipeline entry i) := by
  rcases hw i c hc with ⟨cmd, hcmd, hwired⟩
  rw [hwired.input] at hd
  simp only [readsPipe, fileOf, hcmd]
  cases hempty : cmd.redirectInput.isEmpty with
  | false =>
      simp only [hempty, Bool.false_eq_true, not_false_eq_true, if_true, Option.some.injEq] at hd
      subst hd
      right
      simp only [Bool.and_false, Bool.false_eq_true, if_false, ne_eq, reduceCtorEq,
        not_false_eq_true, implies_true, and_self]
  | true =>
      simp only [hempty, not_true_eq_false, if_false] at hd
      split at hd
      · rename_i hpos
        left
        simp only [hpos, decide_true, Bool.and_self, true_and]
        exact (Option.some.inj hd).symm
      · rename_i hpos
        rcases Option.map_eq_some_iff.mp hd with ⟨f, hf, rfl⟩
        right
        simp only [hpos, decide_false, Bool.false_and, if_true, hf, Option.map_some,
          Option.getD_some, ne_eq, reduceCtorEq, not_false_eq_true, implies_true, and_self]

/-- The standard output of a child is the pipe, or nobody's. -/
theorem stdout_spec {i : Nat} {c : Child} {d : Desc} (hw : AllWired pipeline entry s.exec)
    (hc : s.exec.children[i]? = some c) (hd : c.table.lookup 1 = some d) :
    (writesPipe pipeline i = true ∧ d = .writeEnd i) ∨
      (writesPipe pipeline i = false ∧ ∀ j, d ≠ .writeEnd j) := by
  rcases hw i c hc with ⟨cmd, hcmd, hwired⟩
  rw [hwired.output] at hd
  simp only [writesPipe, hcmd]
  cases hempty : cmd.redirectOutput.isEmpty with
  | false =>
      simp only [hempty, Bool.false_eq_true, not_false_eq_true, if_true, Option.some.injEq] at hd
      subst hd
      right
      simp only [Bool.and_false, ne_eq, reduceCtorEq, not_false_eq_true, implies_true, and_self]
  | true =>
      simp only [hempty, not_true_eq_false, if_false] at hd
      split at hd
      · rename_i hlt
        left
        simp only [hlt, decide_true, Bool.and_self, true_and]
        exact (Option.some.inj hd).symm
      · rename_i hlt
        rcases Option.map_eq_some_iff.mp hd with ⟨f, _, rfl⟩
        right
        simp only [hlt, decide_false, Bool.false_and, ne_eq, reduceCtorEq, not_false_eq_true,
          implies_true, and_self]

/-- A command that reads from the pipe has the read end. -/
theorem stdin_of_readsPipe {i : Nat} {c : Child} (hw : AllWired pipeline entry s.exec)
    (hc : s.exec.children[i]? = some c) (h : readsPipe pipeline i = true) :
    c.table.lookup 0 = some (.readEnd (i - 1)) := by
  rcases hw i c hc with ⟨cmd, hcmd, hwired⟩
  simp only [readsPipe, hcmd, Bool.and_eq_true, decide_eq_true_eq] at h
  rw [hwired.input, if_neg (not_not_intro h.2), if_pos h.1]

theorem stdout_of_writesPipe {i : Nat} {c : Child} (hw : AllWired pipeline entry s.exec)
    (hc : s.exec.children[i]? = some c) (h : writesPipe pipeline i = true) :
    c.table.lookup 1 = some (.writeEnd i) := by
  rcases hw i c hc with ⟨cmd, hcmd, hwired⟩
  simp only [writesPipe, hcmd, Bool.and_eq_true, decide_eq_true_eq] at h
  rw [hwired.output, if_neg (not_not_intro h.2), if_pos h.1]

theorem openIn_of_lookup {t : Table Desc} {m : Nat} {d : Desc} (h : t.lookup m = some d) :
    openIn d t = true :=
  List.any_eq_true.mpr ⟨(m, d), lookup_eq_some.mp h, decide_eq_true rfl⟩

theorem held_of_running {i m : Nat} {c : Child} {d : Desc} (hc : running s i = some c)
    (hd : c.table.lookup m = some d) : held s d = true := by
  rw [held, Bool.or_eq_true, List.any_eq_true]
  rcases running_eq_some.mp hc with ⟨hget, hstatus⟩
  refine .inr ⟨c, List.mem_of_getElem? hget, ?_⟩
  rw [isRunning, hstatus, decide_eq_true rfl, Bool.true_and]
  exact openIn_of_lookup hd

/-- Between two commands the engine has the read end of the pipe. -/
theorem held_of_between {i m : Nat} {table : Table Desc} {prevFd : Option Nat}
    (hb : Between entry (i + 1) table prevFd)
    (hsub : ∀ n, table.lookup n ≠ none → s.exec.table.lookup n = table.lookup n)
    (hm : m = i) : held s (.readEnd m) = true := by
  rcases hb with ⟨n, hn, -, rfl⟩
  have hlookup : s.exec.table.lookup n = some (.readEnd m) := by
    rw [hsub n (by rw [lookup_push, if_pos rfl]; exact Option.some_ne_none _), lookup_push,
      if_pos rfl, hm]
  rw [held, openIn_of_lookup hlookup, Bool.true_or]

/-- Until the next child is forked, the engine has the read end. -/
theorem held_of_next {i : Nat} (he : Engine pipeline entry s.exec)
    (hlen : s.exec.children.length = i + 1) (hlt : i + 1 < pipeline.length) :
    held s (.readEnd i) = true := by
  rw [Engine] at he
  split at he
  · rcases he with ⟨_, hi, _, hb⟩
    obtain rfl := hi.symm.trans hlen
    exact held_of_between hb (fun _ _ => rfl) rfl
  · rcases he with ⟨_, hi, _, hb⟩
    obtain rfl := hi.symm.trans hlen
    exact held_of_between hb (fun _ _ => rfl) rfl
  · rcases he with ⟨_, hi, _, t, hr, hw, hb, htable⟩
    obtain rfl := hi.symm.trans hlen
    refine held_of_between hb (fun n hn => ?_) rfl
    have hfree := (lookup_push_eq_none hr).mp hw
    rw [htable, lookup_push, lookup_push, if_neg fun h : n = _ => hn (h ▸ hfree.2),
      if_neg fun h : n = _ => hn (h ▸ hr)]
  · omega
  · omega
  · exact he.elim

/-! ## What every step preserves -/

/-- How a child ended, if it has. -/
def endOf (s : Pipeline.State) (i : Nat) : Option WaitStatus :=
  s.children[i]?.bind fun c => match c.status with
    | .running => none
    | .zombie status | .reaped status => some status

/-- A child has exited by itself, and all it wrote has left it. -/
def Stopped (setup : Setup σ) (s : State σ) (i : Nat) : Prop :=
  ∃ code, endOf s.exec i = some (.exited code) ∧ (s.procs i).unwritten = [] ∧
    setup.prog (s.procs i).state = .stop code

/-- What every step preserves. -/
structure Inv (setup : Setup σ) (pipeline : List Command) (entry : Table Nat) (s : State σ) :
    Prop where
  engine : Engine pipeline entry s.exec
  wired : AllWired pipeline entry s.exec
  track : ∀ i, OnTrack setup.prog (setup.start i) (s.procs i)
  fresh : ∀ i, s.exec.children[i]? = none → s.procs i = Process.fresh (setup.start i)
  /-- What went into a pipe has been read or is in it. -/
  pipes : ∀ j, (if readsPipe pipeline (j + 1) then (s.procs (j + 1)).received else [])
    ++ s.pipes j = if writesPipe pipeline j then (s.procs j).written else []
  files : ∀ i, readsPipe pipeline i = false → (s.procs i).received <+: fileOf setup pipeline entry i
  /-- Who saw the end of the input has all of it. -/
  seen : ∀ i, (s.procs i).sawEnd = true →
    if readsPipe pipeline i then
      s.pipes (i - 1) = [] ∧ (writesPipe pipeline (i - 1) = true → Stopped setup s (i - 1))
    else (s.procs i).received = fileOf setup pipeline entry i
  /-- Who did not exit by itself wrote to a pipe that nobody reads. -/
  finished : ∀ i status, endOf s.exec i = some status → Stopped setup s i ∨
    writesPipe pipeline i = true ∧
      (readsPipe pipeline (i + 1) = true → endOf s.exec (i + 1) ≠ none)

theorem endOf_of_running {i : Nat} {c : Child} (hc : running s i = some c) :
    endOf s.exec i = none := by
  rcases running_eq_some.mp hc with ⟨hget, hstatus⟩
  simp only [endOf, hget, hstatus, Option.bind_some]

/-- A child that was forked runs or has ended. -/
theorem running_or_ended {i : Nat} (h : i < s.exec.children.length) :
    (∃ c, running s i = some c) ∨ endOf s.exec i ≠ none := by
  have hget := List.getElem?_eq_getElem h
  cases hstatus : s.exec.children[i].status with
  | running => exact .inl ⟨_, running_eq_some.mpr ⟨hget, hstatus⟩⟩
  | zombie status | reaped status =>
      right
      simp only [endOf, hget, hstatus, Option.bind_some, ne_eq, reduceCtorEq, not_false_eq_true]

theorem length_children (he : Engine pipeline entry s.exec) :
    s.exec.children.length ≤ pipeline.length := by
  rw [Engine] at he
  split at he
  · omega
  · omega
  · omega
  · omega
  · omega
  · exact he.elim

theorem inv_init (hn : 2 ≤ pipeline.length) :
    Inv setup pipeline entry (init setup pipeline entry) where
  engine := Pipeline.engine_init entry hn
  wired i c hc := by simp only [init, Pipeline.init, List.getElem?_nil, reduceCtorEq] at hc
  track _ := onTrack_fresh
  fresh _ _ := rfl
  pipes j := by simp only [init, Process.fresh, Process.received, List.append_nil, ite_self]
  files i _ := List.nil_prefix
  seen i h := by simp only [init, Process.fresh, Bool.false_eq_true] at h
  finished i status h := by
    simp only [endOf, init, Pipeline.init, List.getElem?_nil, Option.bind_none, reduceCtorEq] at h

/-! ## The calls of the engine -/

/-- A call of the engine ends no child, and a wait does not change how one ended. -/
theorem endOf_call {e f : Pipeline.State} {a : Pipeline.Action} (ha : isCall a = true)
    (h : Pipeline.step pipeline e a = some f) (i : Nat) : endOf f i = endOf e i := by
  cases Pipeline.moves_of_step h with
  | pipes | pipeFails | forkFails => rfl
  | forks k fd pid cmd opensOutput opensInput =>
      simp only [endOf, Pipeline.forked]
      rcases Nat.lt_or_ge i e.children.length with hi | hi
      · rw [List.getElem?_append_left hi]
      · rw [List.getElem?_append_right hi, List.getElem?_eq_none hi, List.getElem?_singleton]
        split
        · rfl
        · rfl
  | ended => exact absurd ha Bool.false_ne_true
  | waits j c status result hp hj hc =>
      simp only [endOf, Pipeline.reap, List.getElem?_set]
      split
      · rename_i hji
        subst hji
        have hlt : j < e.children.length := (List.getElem?_eq_some_iff.mp hj).1
        simp only [hlt, if_true, hj, Option.bind_some, hc]
      · rfl

/-- No child goes away. -/
theorem children_call {e f : Pipeline.State} {a : Pipeline.Action}
    (h : Pipeline.step pipeline e a = some f) {i : Nat} (hi : f.children[i]? = none) :
    e.children[i]? = none := by
  rw [List.getElem?_eq_none_iff] at hi ⊢
  cases Pipeline.moves_of_step h with
  | pipes | pipeFails | forkFails => exact hi
  | forks =>
      rw [Pipeline.forked, List.length_append] at hi
      exact Nat.le_of_add_right_le hi
  | ended | waits =>
      rw [← List.length_set]
      exact hi

theorem inv_calls (hi : Inv setup pipeline entry s) {a : Pipeline.Action} {e : Pipeline.State}
    (hcall : isCall a = true) (hmade : a.made = true) (hopens : a.opens = true)
    (h0 : entry.lookup 0 ≠ none) (h1 : entry.lookup 1 ≠ none)
    (he : Pipeline.step pipeline s.exec a = some e) :
    Inv setup pipeline entry { s with exec := e } := by
  have hsame := endOf_call hcall he
  have hstopped : ∀ i, Stopped setup { s with exec := e } i ↔ Stopped setup s i := by
    intro i
    simp only [Stopped, hsame]
  refine ⟨Pipeline.engine_step hi.engine hmade he,
    Pipeline.allWired_step h0 h1 hi.engine hi.wired hopens he, hi.track,
    fun i hnone => hi.fresh i (children_call he hnone), hi.pipes, hi.files, ?_, ?_⟩
  · simp only [hstopped]
    exact hi.seen
  · simp only [hstopped, hsame]
    exact hi.finished

/-! ## The steps of a process -/

theorem take_of_file {d : Desc} (hd : ∀ j, d ≠ .readEnd j) (k : Nat) : take s k d = s := by
  cases d with
  | readEnd j => exact absurd rfl (hd j)
  | _ => rfl

theorem available_of_file {d : Desc} (hd : ∀ j, d ≠ .readEnd j) (i : Nat) :
    available setup s i d = (setup.content d).drop (s.procs i).received.length := by
  cases d with
  | readEnd j => exact absurd rfl (hd j)
  | _ => rfl

theorem ended_of_file {d : Desc} (hd : ∀ j, d ≠ .readEnd j) (i : Nat) :
    ended setup s i d = (available setup s i d).isEmpty := by
  cases d with
  | readEnd j => exact absurd rfl (hd j)
  | _ => rfl

theorem put_of_file {d : Desc} (hd : ∀ j, d ≠ .writeEnd j) (bytes : Bytes) :
    put s bytes d = s := by
  cases d with
  | writeEnd j => exact absurd rfl (hd j)
  | _ => rfl

/-- One process goes on, and the pipes with it. -/
theorem inv_proc (hi : Inv setup pipeline entry s) {i : Nat} {c : Child} (hc : running s i = some c)
    {p : Process UInt8 σ} {pipes : Nat → Bytes}
    (htrack : OnTrack setup.prog (setup.start i) p)
    (hpipes : ∀ j, (if readsPipe pipeline (j + 1)
        then (Function.update s.procs i p (j + 1)).received else []) ++ pipes j
      = if writesPipe pipeline j then (Function.update s.procs i p j).written else [])
    (hfiles : readsPipe pipeline i = false → p.received <+: fileOf setup pipeline entry i)
    (hseen : p.sawEnd = true → if readsPipe pipeline i then
        pipes (i - 1) = [] ∧ (writesPipe pipeline (i - 1) = true → Stopped setup s (i - 1))
      else p.received = fileOf setup pipeline entry i)
    (hothers : ∀ x, x ≠ i → readsPipe pipeline x = true → (s.procs x).sawEnd = true →
      pipes (x - 1) = []) :
    Inv setup pipeline entry ⟨s.exec, Function.update s.procs i p, pipes⟩ := by
  have hnone := endOf_of_running hc
  have hstopped : ∀ x, Stopped setup ⟨s.exec, Function.update s.procs i p, pipes⟩ x
      ↔ Stopped setup s x := by
    intro x
    by_cases hx : x = i
    · simp only [Stopped, hx, hnone, reduceCtorEq, false_and, exists_false]
    · simp only [Stopped, Function.update_of_ne hx]
  refine ⟨hi.engine, hi.wired, fun x => ?_, fun x hx => ?_, hpipes, fun x hx => ?_,
    fun x hx => ?_, fun x status hx => ?_⟩
  · by_cases hxi : x = i
    · simp only [hxi, Function.update_self]
      exact htrack
    · simp only [Function.update_of_ne hxi]
      exact hi.track x
  · have hxi : x ≠ i := by
      rintro rfl
      rw [(running_eq_some.mp hc).1] at hx
      simp only [reduceCtorEq] at hx
    simp only [Function.update_of_ne hxi]
    exact hi.fresh x hx
  · by_cases hxi : x = i
    · simp only [hxi, Function.update_self]
      exact hfiles (hxi ▸ hx)
    · simp only [Function.update_of_ne hxi]
      exact hi.files x hx
  · simp only [hstopped]
    by_cases hxi : x = i
    · simp only [hxi, Function.update_self] at hx ⊢
      exact hseen hx
    · simp only [Function.update_of_ne hxi] at hx ⊢
      have hold := hi.seen x hx
      cases hreads : readsPipe pipeline x with
      | true =>
          simp only [hreads, if_true] at hold ⊢
          exact ⟨hothers x hxi hreads hx, hold.2⟩
      | false =>
          simp only [hreads, Bool.false_eq_true, if_false] at hold ⊢
          exact hold
  · simp only [hstopped]
    exact hi.finished x status hx

theorem written_update {i j : Nat} {p : Process UInt8 σ} (h : p.written = (s.procs i).written) :
    (if writesPipe pipeline j then (s.procs j).written else [])
      = if writesPipe pipeline j then (Function.update s.procs i p j).written else [] := by
  rw [Function.update_apply]
  split
  · split
    · rename_i hj
      rw [h, hj]
    · rfl
  · rfl

/-- A step that moves nothing through the pipes. -/
theorem inv_inside (hi : Inv setup pipeline entry s) {i : Nat} {c : Child}
    (hc : running s i = some c) {p : Process UInt8 σ}
    (htrack : OnTrack setup.prog (setup.start i) p) (hreceived : p.received = (s.procs i).received)
    (hwritten : writesPipe pipeline i = true → p.written = (s.procs i).written)
    (hseen : p.sawEnd = true → if readsPipe pipeline i then
        s.pipes (i - 1) = [] ∧ (writesPipe pipeline (i - 1) = true → Stopped setup s (i - 1))
      else p.received = fileOf setup pipeline entry i) :
    Inv setup pipeline entry (setProc s i p) := by
  refine inv_proc hi hc htrack (fun j => ?_) (fun h => hreceived ▸ hi.files i h) hseen
    fun x hx hreads hend => ?_
  · have hsame : (Function.update s.procs i p (j + 1)).received = (s.procs (j + 1)).received := by
      rw [Function.update_apply]
      split
      · rename_i hj
        rw [hj, hreceived]
      · rfl
    rw [hsame, hi.pipes j]
    by_cases hj : j = i
    · subst hj
      rw [Function.update_self]
      split
      · rename_i hwrites
        rw [hwritten hwrites]
      · rfl
    · rw [Function.update_of_ne hj]
  · have hold := hi.seen x hend
    rw [if_pos hreads] at hold
    exact hold.1

theorem inv_reads (hi : Inv setup pipeline entry s) {i k : Nat} {c : Child} {d : Desc}
    (hc : running s i = some c) (hd : c.table.lookup 0 = some d)
    (hk : 0 < k ∧ k ≤ (available setup s i d).length) :
    Inv setup pipeline entry
      (setProc (take s k d) i ((s.procs i).fill ((available setup s i d).take k))) := by
  rcases stdin_spec setup hi.wired (running_eq_some.mp hc).1 hd with
    ⟨hreads, rfl⟩ | ⟨hreads, hfile, hcontent⟩
  · have hpos := lt_of_readsPipe hreads
    have hopen : (s.procs i).sawEnd = false := by
      rw [Bool.eq_false_iff]
      intro hend
      -- the pipe was empty and stays so
      have hempty := hi.seen i hend
      rw [if_pos hreads] at hempty
      rw [available, hempty.1, List.length_nil] at hk
      omega
    refine inv_proc hi hc (onTrack_fill (hi.track i) hopen _) (fun j => ?_) (fun h => ?_)
      (fun h => ?_) fun x hx hreadsx hend => ?_
    · rw [← written_update (p := (s.procs i).fill _) rfl, ← hi.pipes j]
      by_cases hji : j + 1 = i
      · subst hji
        simp only [hreads, if_true, Function.update_self, Process.received_fill, available, take,
          Nat.add_sub_cancel, List.append_assoc, List.take_append_drop]
      · have hother : j ≠ i - 1 := by omega
        simp only [Function.update_of_ne hji, take, Function.update_of_ne hother]
    · rw [hreads] at h
      exact absurd h.symm Bool.false_ne_true
    · exact absurd (hopen.symm.trans h) Bool.false_ne_true
    · have hposx := lt_of_readsPipe hreadsx
      have hold := hi.seen x hend
      have hother : x - 1 ≠ i - 1 := by omega
      rw [if_pos hreadsx] at hold
      simp only [take, Function.update_of_ne hother]
      exact hold.1
  · rw [available_of_file hfile, hcontent] at hk
    have hreceived := hi.files i hreads
    rw [take_of_file hfile, available_of_file hfile, hcontent]
    have hopen : (s.procs i).sawEnd = false := by
      rw [Bool.eq_false_iff]
      intro hend
      have hall := hi.seen i hend
      simp only [hreads, Bool.false_eq_true, if_false] at hall
      rw [hall, List.drop_length, List.length_nil] at hk
      omega
    refine inv_proc hi hc (onTrack_fill (hi.track i) hopen _) (fun j => ?_) (fun _ => ?_)
      (fun h => ?_) fun x hx hreadsx hend => ?_
    · rw [← written_update (p := (s.procs i).fill _) rfl, ← hi.pipes j]
      by_cases hji : j + 1 = i
      · simp only [hji, hreads, Bool.false_eq_true, if_false]
      · rw [Function.update_of_ne hji]
    · rcases hreceived with ⟨more, hmore⟩
      rw [Process.received_fill, ← hmore, List.drop_left]
      exact (List.prefix_append_right_inj _).mpr (List.take_prefix k more)
    · exact absurd (hopen.symm.trans h) Bool.false_ne_true
    · have hold := hi.seen x hend
      rw [if_pos hreadsx] at hold
      exact hold.1

/-- The end of the input is seen when nobody can write any more. -/
theorem inv_readsEnd (hi : Inv setup pipeline entry s) {i : Nat} {c : Child} {d : Desc}
    (hc : running s i = some c) (hd : c.table.lookup 0 = some d)
    (hend : ended setup s i d = true) : Inv setup pipeline entry (setProc s i (s.procs i).see) := by
  have hget := (running_eq_some.mp hc).1
  refine inv_inside hi hc (onTrack_see (hi.track i)) rfl (fun _ => rfl) fun _ => ?_
  rcases stdin_spec setup hi.wired hget hd with
    ⟨hreads, rfl⟩ | ⟨hreads, hfile, hcontent⟩
  · simp only [ended, Bool.and_eq_true, List.isEmpty_iff, Bool.not_eq_true'] at hend
    rw [if_pos hreads]
    refine ⟨hend.1, fun hwrites => ?_⟩
    have hpos := lt_of_readsPipe hreads
    have hlen : i < s.exec.children.length := (List.getElem?_eq_some_iff.mp hget).1
    rcases running_or_ended (s := s) (i := i - 1) (by omega) with ⟨b, hb⟩ | hover
    · -- the one before would have the write end
      have hout := stdout_of_writesPipe hi.wired (running_eq_some.mp hb).1 hwrites
      rw [held_of_running hb hout] at hend
      exact absurd hend.2 Bool.false_ne_true.symm
    · rcases Option.ne_none_iff_exists'.mp hover with ⟨status, hstatus⟩
      rcases hi.finished (i - 1) status hstatus with hstopped | ⟨_, hnobody⟩
      · exact hstopped
      · rw [Nat.sub_add_cancel hpos] at hnobody
        exact absurd (endOf_of_running hc) (hnobody hreads)
  · rw [ended_of_file hfile, available_of_file hfile, hcontent, List.isEmpty_iff,
      List.drop_eq_nil_iff] at hend
    simp only [hreads, Bool.false_eq_true, if_false]
    exact (hi.files i hreads).eq_of_length_le hend

theorem inv_works (hi : Inv setup pipeline entry s) {i : Nat} {c : Child} {p : Process UInt8 σ}
    (hc : running s i = some c) (hp : (s.procs i).tick setup.prog = some p) :
    Inv setup pipeline entry (setProc s i p) := by
  rcases Process.tick_spec hp with ⟨hreceived, hwritten, hend, _⟩
  refine inv_inside hi hc (onTrack_tick (hi.track i) hp) hreceived (fun _ => hwritten) fun h => ?_
  rw [hreceived]
  exact hi.seen i (hend ▸ h)

theorem inv_writes (hi : Inv setup pipeline entry s) {i k : Nat} {c : Child} {d : Desc}
    (hc : running s i = some c) (hd : c.table.lookup 1 = some d) :
    Inv setup pipeline entry
      (setProc (put s ((s.procs i).unwritten.take k) d) i ((s.procs i).flush k)) := by
  have htrack := onTrack_flush (hi.track i) k
  rcases stdout_spec hi.wired (running_eq_some.mp hc).1 hd with ⟨hwrites, rfl⟩ | ⟨hwrites, hfile⟩
  · -- the reader of this pipe has not seen its end
    have hunseen : ∀ x, readsPipe pipeline x = true → (s.procs x).sawEnd = true → x - 1 ≠ i := by
      rintro x hreads hend rfl
      have hold := hi.seen x hend
      rw [if_pos hreads] at hold
      rcases hold.2 hwrites with ⟨code, hcode, _⟩
      rw [endOf_of_running hc] at hcode
      simp only [reduceCtorEq] at hcode
    have hempty : ∀ x, readsPipe pipeline x = true → (s.procs x).sawEnd = true →
        (put s ((s.procs i).unwritten.take k) (.writeEnd i)).pipes (x - 1) = [] := by
      intro x hreads hend
      have hold := hi.seen x hend
      rw [if_pos hreads] at hold
      simp only [put, Function.update_of_ne (hunseen x hreads hend)]
      exact hold.1
    refine inv_proc hi hc htrack (fun j => ?_) (hi.files i) (fun h => ?_) fun x _ => hempty x
    · have hj := hi.pipes j
      have hsame : (Function.update s.procs i ((s.procs i).flush k) (j + 1)).received
          = (s.procs (j + 1)).received := by
        rw [Function.update_apply]
        split
        · rename_i hji
          rw [hji, Process.received_flush]
        · rfl
      rw [hsame]
      by_cases hji : j = i
      · subst hji
        rw [if_pos hwrites] at hj ⊢
        simp only [put, Function.update_self, Process.flush, ← hj, List.append_assoc]
      · simp only [put, Function.update_of_ne hji]
        exact hj
    · have hold := hi.seen i h
      cases hreads : readsPipe pipeline i with
      | true =>
          rw [if_pos hreads] at hold
          exact ⟨hempty i hreads h, hold.2⟩
      | false =>
          simp only [hreads, Bool.false_eq_true, if_false] at hold ⊢
          exact hold
  · rw [put_of_file hfile]
    refine inv_inside hi hc htrack rfl (fun h => ?_) (hi.seen i)
    exact absurd (hwrites.symm.trans h) Bool.false_ne_true

/-- A child ends, and what is known of its end is what has to be known. -/
theorem inv_ends (hi : Inv setup pipeline entry s) {i : Nat} {c : Child} {status : WaitStatus}
    (hc : running s i = some c) (hover : ((s.procs i).unwritten = [] ∧
      ∃ code, status = .exited code ∧ setup.prog (s.procs i).state = .stop code) ∨
        writesPipe pipeline i = true ∧
          (readsPipe pipeline (i + 1) = true → endOf s.exec (i + 1) ≠ none)) :
    Inv setup pipeline entry { s with exec := { s.exec with
      children := s.exec.children.set i { c with status := .zombie status } } } := by
  rcases running_eq_some.mp hc with ⟨hget, hrun⟩
  have hlt : i < s.exec.children.length := (List.getElem?_eq_some_iff.mp hget).1
  set e : Pipeline.State := { s.exec with
    children := s.exec.children.set i { c with status := .zombie status } } with he
  have hself : endOf e i = some status := by
    simp only [endOf, he, List.getElem?_set_self hlt, Option.bind_some]
  have hother : ∀ x, x ≠ i → endOf e x = endOf s.exec x := by
    intro x hx
    simp only [endOf, he, List.getElem?_set_ne (Ne.symm hx)]
  have hkept : ∀ x status', endOf s.exec x = some status' → endOf e x = some status' := by
    intro x status' hx
    rw [hother x, hx]
    rintro rfl
    rw [endOf_of_running hc] at hx
    simp only [reduceCtorEq] at hx
  have hstopped : ∀ x, Stopped setup s x → Stopped setup { s with exec := e } x :=
    fun x ⟨code, hcode, hrest⟩ => ⟨code, hkept x _ hcode, hrest⟩
  have hsome : ∀ x, endOf s.exec x ≠ none → endOf e x ≠ none := by
    intro x hx
    rcases Option.ne_none_iff_exists'.mp hx with ⟨status', hstatus'⟩
    rw [hkept x status' hstatus']
    exact Option.some_ne_none _
  refine ⟨Pipeline.engine_ends status hi.engine hget hrun, Pipeline.allWired_set hi.wired hget,
    hi.track, fun x hx => hi.fresh x ?_, hi.pipes, hi.files, fun x hx => ?_, fun x st hx => ?_⟩
  · rw [List.getElem?_eq_none_iff] at hx ⊢
    rw [← List.length_set]
    exact hx
  · have hold := hi.seen x hx
    cases hreads : readsPipe pipeline x with
    | true =>
        simp only [hreads, if_true] at hold ⊢
        exact ⟨hold.1, fun hwrites => hstopped _ (hold.2 hwrites)⟩
    | false =>
        simp only [hreads, Bool.false_eq_true, if_false] at hold ⊢
        exact hold
  · by_cases hxi : x = i
    · subst hxi
      rcases hover with ⟨hdone, code, rfl, hstop⟩ | ⟨hwrites, hnobody⟩
      · exact .inl ⟨code, hself, hdone, hstop⟩
      · exact .inr ⟨hwrites, fun hreads => hsome _ (hnobody hreads)⟩
    · have hold : endOf s.exec x = some st := (hother x hxi).symm.trans hx
      exact (hi.finished x st hold).imp (hstopped x)
        fun ⟨hwrites, hnobody⟩ => ⟨hwrites, fun hreads => hsome _ (hnobody hreads)⟩

/-- Nobody reads from a broken pipe, and nobody will. -/
theorem reader_over (hi : Inv setup pipeline entry s) {i : Nat} {c : Child}
    (hc : running s i = some c) (hwrites : writesPipe pipeline i = true)
    (hfree : held s (.readEnd i) = false) (hreads : readsPipe pipeline (i + 1) = true) :
    endOf s.exec (i + 1) ≠ none := by
  have hlt := (List.getElem?_eq_some_iff.mp (running_eq_some.mp hc).1).1
  by_cases hnext : i + 1 < s.exec.children.length
  · rcases running_or_ended hnext with ⟨b, hb⟩ | hover
    · have hin := stdin_of_readsPipe hi.wired (running_eq_some.mp hb).1 hreads
      rw [Nat.add_sub_cancel] at hin
      rw [held_of_running hb hin] at hfree
      exact absurd hfree Bool.false_ne_true.symm
    · exact hover
  · have hlen : s.exec.children.length = i + 1 := by omega
    rw [held_of_next hi.engine hlen (lt_of_writesPipe hwrites)] at hfree
    exact absurd hfree Bool.false_ne_true.symm

/-- The calls of the engine succeed, and its children can open their files. -/
def Action.succeeds : Action → Bool
  | .call a => a.made && a.opens
  | _ => true

theorem inv_moves (hi : Inv setup pipeline entry s) (h0 : entry.lookup 0 ≠ none)
    (h1 : entry.lookup 1 ≠ none) {a : Action} (ha : a.succeeds = true)
    (h : Moves setup pipeline s a t) : Inv setup pipeline entry t := by
  cases h with
  | calls a e hcall he =>
      rw [Action.succeeds, Bool.and_eq_true] at ha
      exact inv_calls hi hcall ha.1 ha.2 h0 h1 he
  | reads i k c d hc hd hk => exact inv_reads hi hc hd hk
  | readsEnd i c d hc hd hend hnew => exact inv_readsEnd hi hc hd hend
  | works i c p hc hp => exact inv_works hi hc hp
  | writes i k c d hc hd hk hroom => exact inv_writes hi hc hd
  | exits i c status hc hstop hdone => exact inv_ends hi hc (.inl ⟨hdone, status, rfl, hstop⟩)
  | breaks i c d hc hd hleft hbroken =>
      rcases stdout_spec hi.wired (running_eq_some.mp hc).1 hd with
        ⟨hwrites, rfl⟩ | ⟨_, hfile⟩
      · rw [broken, Bool.not_eq_true'] at hbroken
        exact inv_ends hi hc (.inr ⟨hwrites, reader_over hi hc hwrites hbroken⟩)
      · cases d with
        | writeEnd j => exact absurd rfl (hfile j)
        | _ => exact absurd hbroken Bool.false_ne_true

theorem inv_run (hn : 2 ≤ pipeline.length) (h0 : entry.lookup 0 ≠ none)
    (h1 : entry.lookup 1 ≠ none) {actions : List Action} (ha : ∀ a ∈ actions, a.succeeds = true)
    (h : Lts.run (step setup pipeline) (init setup pipeline entry) actions = some s) :
    Inv setup pipeline entry s :=
  Lts.end_of_along (G := fun _ a => a.succeeds = true)
    (fun _ _ _ hi ha hs => inv_moves hi h0 h1 ha (moves_of_step hs)) (inv_init hn)
    (Lts.along_of_forall fun a hmem _ => ha a hmem) h

/-! ## What comes out -/

/-- What the commands write and how they exit, if each has its input from the
    start. -/
def Meaning (setup : Setup σ) (pipeline : List Command) (entry : Table Nat) (out : Nat → Bytes)
    (code : Nat → UInt8) (steps : Nat → Nat) : Prop :=
  ∀ i < pipeline.length, Yields setup.prog (setup.start i) (given setup pipeline entry out i)
    (out i) (code i) (steps i)

variable {out : Nat → Bytes} {code : Nat → UInt8} {steps : Nat → Nat}

/-- How far a command can have come, by induction along the pipeline. -/
theorem progress (hi : Inv setup pipeline entry s)
    (hm : Meaning setup pipeline entry out code steps) {i : Nat} (hlt : i < pipeline.length) :
    ((s.procs i).received <+: given setup pipeline entry out i ∧
      ((s.procs i).sawEnd = true → (s.procs i).received = given setup pipeline entry out i)) ∧
    (s.procs i).ticks ≤ steps i ∧ (s.procs i).emitted <+: out i ∧
      ∀ c, setup.prog (s.procs i).state = .stop c → (s.procs i).emitted = out i ∧ c = code i := by
  induction i with
  | zero =>
      have hno : readsPipe pipeline 0 = false :=
        Bool.eq_false_iff.mpr fun h => absurd (lt_of_readsPipe h) (Nat.lt_irrefl 0)
      have hgiven : given setup pipeline entry out 0 = fileOf setup pipeline entry 0 := by
        simp only [given, hno, Bool.false_eq_true, if_false]
      have hinput : (s.procs 0).received <+: given setup pipeline entry out 0 :=
        hgiven ▸ hi.files 0 hno
      have hall : (s.procs 0).sawEnd = true →
          (s.procs 0).received = given setup pipeline entry out 0 := by
        intro hend
        have hseen := hi.seen 0 hend
        simp only [hno, Bool.false_eq_true, if_false] at hseen
        exact hseen.trans hgiven.symm
      exact ⟨⟨hinput, hall⟩, (hi.track 0).bound (hm 0 hlt) hinput hall⟩
  | succ i ih =>
      rcases ih (by omega) with ⟨_, _, hout, hstop⟩
      have hpipe := hi.pipes i
      have hinput : (s.procs (i + 1)).received <+: given setup pipeline entry out (i + 1) ∧
          ((s.procs (i + 1)).sawEnd = true →
            (s.procs (i + 1)).received = given setup pipeline entry out (i + 1)) := by
        cases hreads : readsPipe pipeline (i + 1) with
        | false =>
            simp only [given, hreads, Bool.false_eq_true, if_false]
            refine ⟨hi.files (i + 1) hreads, fun hend => ?_⟩
            have hseen := hi.seen (i + 1) hend
            simp only [hreads, Bool.false_eq_true, if_false] at hseen
            exact hseen
        | true =>
            simp only [hreads, if_true] at hpipe
            simp only [given, hreads, if_true, Nat.add_sub_cancel]
            constructor
            · refine (List.prefix_append _ (s.pipes i)).trans ?_
              rw [hpipe]
              split
              · exact (List.prefix_append _ _).trans hout
              · exact List.prefix_rfl
            · intro hend
              have hseen := hi.seen (i + 1) hend
              simp only [hreads, if_true, Nat.add_sub_cancel] at hseen
              rw [hseen.1, List.append_nil] at hpipe
              rw [hpipe]
              split
              · rename_i hwrites
                rcases hseen.2 hwrites with ⟨c, _, hdone, hc⟩
                have hemitted := (hstop c hc).1
                rw [Process.emitted, hdone, List.append_nil] at hemitted
                exact hemitted
              · rfl
      exact ⟨hinput, (hi.track (i + 1)).bound (hm (i + 1) hlt) hinput.1 hinput.2⟩

/-- The pipeline does what its commands do one after the other. -/
structure Composes (pipeline : List Command) (out : Nat → Bytes) (code : Nat → UInt8)
    (s : State σ) : Prop where
  /-- What a command has written so far is a part of what it is to write. -/
  part : ∀ i < pipeline.length, (s.procs i).written <+: out i
  /-- Unless it writes to a pipe, it has written all of it when it ends. -/
  whole : ∀ i status, endOf s.exec i = some status → writesPipe pipeline i = false →
    (s.procs i).written = out i ∧ status = .exited (code i)
  /-- In the foreground, `executePipeline` returns when the last command has
      written everything, with the status of that one. -/
  result : ∀ result, s.exec.phase = .returned result → isBackground pipeline = false →
    result = resultOf (.exited (code (pipeline.length - 1))) ∧
      (s.procs (pipeline.length - 1)).written = out (pipeline.length - 1)

/-- For two commands or more whose programs stop on the inputs they come to
    have, called with the descriptors 0 to 2 open, any capacity of the pipes and
    any interleaving of the engine's calls with the reads and writes of the
    commands. -/
theorem pipeline_composes (setup : Setup σ) (pipeline : List Command) (entry : Table Nat)
    (hn : 2 ≤ pipeline.length) (hopen : ∀ m < 3, entry.lookup m ≠ none) (out : Nat → Bytes)
    (code : Nat → UInt8) (steps : Nat → Nat) (hm : Meaning setup pipeline entry out code steps)
    (actions : List Action) (ha : ∀ a ∈ actions, a.succeeds = true) (s : State σ)
    (h : Lts.run (step setup pipeline) (init setup pipeline entry) actions = some s) :
    Composes pipeline out code s := by
  have hi := inv_run hn (hopen 0 (by decide)) (hopen 1 (by decide)) ha h
  have hlen : ∀ i status, endOf s.exec i = some status → i < pipeline.length := by
    intro i status hend
    rcases Option.bind_eq_some_iff.mp hend with ⟨c, hc, _⟩
    exact Nat.lt_of_lt_of_le (List.getElem?_eq_some_iff.mp hc).1 (length_children hi.engine)
  have hwhole : ∀ i status, endOf s.exec i = some status → writesPipe pipeline i = false →
      (s.procs i).written = out i ∧ status = .exited (code i) := by
    intro i status hend hwrites
    rcases hi.finished i status hend with ⟨c, hc, hdone, hstop⟩ | ⟨hpipe, _⟩
    · rcases (progress hi hm (hlen i status hend)).2.2.2 c hstop with ⟨hemitted, rfl⟩
      rw [Process.emitted, hdone, List.append_nil] at hemitted
      exact ⟨hemitted, Option.some.inj (hend.symm.trans hc)⟩
    · exact absurd (hwrites.symm.trans hpipe) Bool.false_ne_true
  refine ⟨fun i hlt => ?_, hwhole, fun result hp hfg => ?_⟩
  · exact (List.prefix_append _ _).trans (progress hi hm hlt).2.2.1
  · have he := hi.engine
    simp only [Engine, hp] at he
    rcases he with ⟨hchildren, _, hresult⟩
    rcases (hresult hfg).2 with ⟨c, status, hlast, hstatus, rfl⟩
    have hend : endOf s.exec (pipeline.length - 1) = some status := by
      rw [List.getLast?_eq_getElem?, hchildren] at hlast
      simp only [endOf, hlast, Option.bind_some, hstatus]
    have hwrites : writesPipe pipeline (pipeline.length - 1) = false := by
      rw [Bool.eq_false_iff]
      intro hw
      have hlt := lt_of_writesPipe hw
      omega
    rcases hwhole _ status hend hwrites with ⟨hwritten, rfl⟩
    exact ⟨rfl, hwritten⟩

/-- The first command writes two bytes, and the second one copies the first of
    those that it reads. -/
def firstByte : Setup (Nat × UInt8) where
  prog
    | (0, _) => .write 1 (1, 0)
    | (1, _) => .write 2 (2, 0)
    | (2, _) => .stop 0
    | (3, _) => .read fun
      | none => (5, 0)
      | some byte => (4, byte)
    | (4, byte) => .write byte (5, 0)
    | _ => .stop 7
  start i := if i = 0 then (0, 0) else (3, 0)
  content _ := []
  capacity := 1
  capacity_pos := Nat.one_pos

theorem meaning_firstByte : Meaning firstByte Pipeline.pair Descriptors.standard
    (fun i => if i = 0 then [1, 2] else [1]) (fun i => if i = 0 then 0 else 7) (fun _ => 2) := by
  intro i hi
  have hlen : Pipeline.pair.length = 2 := rfl
  rcases i with _ | _ | i
  · exact ⟨_, rfl, rfl, rfl⟩
  · exact ⟨_, rfl, rfl, rfl⟩
  · omega

/-- The pipe holds one byte, and the first command is killed when it writes the
    other one. -/
theorem pipeline_composes_first : ∃ s : State (Nat × UInt8),
    s.exec.phase = .returned { exitCode := 7, success := false } ∧
      endOf s.exec 0 = some (.signaled 13) ∧ (s.procs 1).written = [1] := by
  let actions : List Action := [.call (.pipe true), .call (.fork (some 10) true true), .work 0,
    .work 0, .write 0 1, .call (.fork (some 11) true true), .read 1 1, .work 1, .work 1,
    .write 1 1, .exit 1, .sigpipe 0, .call .waitpid, .call .waitpid]
  have hrun : (Lts.run (step firstByte Pipeline.pair)
      (init firstByte Pipeline.pair Descriptors.standard) actions).map
        (fun s => (s.exec.phase, endOf s.exec 0)) =
      some (.returned { exitCode := 7, success := false }, some (.signaled 13)) := by decide +kernel
  rcases Option.map_eq_some_iff.mp hrun with ⟨s, hs, hend⟩
  rw [Prod.mk.injEq] at hend
  have hcomposes := pipeline_composes firstByte Pipeline.pair Descriptors.standard (by decide)
    (by decide) _ _ _ meaning_firstByte actions (by decide) s hs
  exact ⟨s, hend.1, hend.2, (hcomposes.result _ hend.1 (by decide)).2⟩

end Plumbing

end Isolyx
