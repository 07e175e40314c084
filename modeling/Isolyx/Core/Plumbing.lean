import Isolyx.Core.Pipeline
import Isolyx.Library.Run
import Isolyx.Library.Streams
import Mathlib.Logic.Function.Basic

/-!
# A Pipeline at Work

The processes that `Executor::executePipeline` starts, with the bytes that go
from one to the next. The engine's calls are those of `Core.Pipeline`. A child
runs the program of its command from the moment it is forked: it reads its
standard input and writes its standard output, whatever its descriptors 0 and 1
refer to.

A `read` of a pipe takes any number of the bytes in it. It returns 0 when there
are none and nobody has the write end open any more, the engine and the other
children included, and as long as somebody has it, it waits. A pipe holds so
many bytes; a `write` puts some into it as there is room. If nobody has the read
end, it raises `SIGPIPE`, and the child is killed. What a process may read
besides are files, which nobody changes meanwhile, and what it writes besides is
kept.

A program is deterministic, uses these two descriptors only and does not ignore
the signal. When it exits, all it wrote has left it.

## Main definitions

* `Setup`: The programs, the files and the capacity of a pipe.
* `State`: The pipeline, its processes and its pipes.
* `held`: Somebody has a descriptor for this.
* `available`, `ended`, `accepts`: What a system call depends on.
* `step`: The transition function.
* `Moves`: Its transitions, one by one.
-/

namespace Isolyx

namespace Plumbing

open Descriptors (Table)
open Pipeline (Child Desc)
open Streams (Process Request)

structure Setup (σ : Type) where
  prog : σ → Request UInt8 σ UInt8
  /-- How the command at a position begins. -/
  start : Nat → σ
  /-- What there is to read from a file. -/
  content : Desc → Bytes
  /-- How many bytes a pipe holds. -/
  capacity : Nat
  capacity_pos : 0 < capacity

structure State (σ : Type) where
  exec : Pipeline.State
  procs : Nat → Process UInt8 σ
  pipes : Nat → Bytes

inductive Action where
  /-- A call of the engine. -/
  | call (a : Pipeline.Action)
  /-- `read` returns so many bytes. -/
  | read (i k : Nat)
  /-- `read` returns 0. -/
  | readEnd (i : Nat)
  /-- The program takes a step. -/
  | work (i : Nat)
  /-- `write` takes so many bytes. -/
  | write (i k : Nat)
  | exit (i : Nat)
  /-- The signal a `write` raises. -/
  | sigpipe (i : Nat)
  deriving DecidableEq, Repr

/-- A child does not end by an action of the engine. -/
def isCall : Pipeline.Action → Bool
  | .ends _ _ => false
  | .pipe _ | .fork _ _ _ | .waitpid => true

variable {σ : Type}

def isRunning (c : Child) : Bool := c.status = .running

/-- The child at a position, if it runs. -/
def running (s : State σ) (i : Nat) : Option Child := s.exec.children[i]?.filter isRunning

def openIn (d : Desc) (t : Table Desc) : Bool := t.entries.any fun e => e.2 = d

/-- The engine or a child that runs has a descriptor for this. -/
def held (s : State σ) (d : Desc) : Bool :=
  openIn d s.exec.table || s.exec.children.any fun c => isRunning c && openIn d c.table

def setProc (s : State σ) (i : Nat) (p : Process UInt8 σ) : State σ :=
  { s with procs := Function.update s.procs i p }

/-- What a `read` finds. A file is read from its beginning. -/
def available (setup : Setup σ) (s : State σ) (i : Nat) : Desc → Bytes
  | .readEnd j => s.pipes j
  | file => (setup.content file).drop (s.procs i).received.length

/-- Nothing will come any more. -/
def ended (setup : Setup σ) (s : State σ) (i : Nat) : Desc → Bool
  | .readEnd j => (s.pipes j).isEmpty && !held s (.writeEnd j)
  | file => (available setup s i file).isEmpty

/-- The bytes read are gone from a pipe. -/
def take (s : State σ) (k : Nat) : Desc → State σ
  | .readEnd j => { s with pipes := Function.update s.pipes j ((s.pipes j).drop k) }
  | _ => s

/-- A `write` of so many bytes goes through. -/
def accepts (setup : Setup σ) (s : State σ) (k : Nat) : Desc → Bool
  | .writeEnd j => (s.pipes j).length + k ≤ setup.capacity && held s (.readEnd j)
  | _ => true

def put (s : State σ) (bytes : Bytes) : Desc → State σ
  | .writeEnd j => { s with pipes := Function.update s.pipes j (s.pipes j ++ bytes) }
  | _ => s

/-- A `write` raises the signal. -/
def broken (s : State σ) : Desc → Bool
  | .writeEnd j => !held s (.readEnd j)
  | _ => false

/-- A child ends, by itself or by a signal. -/
def endChild (pipeline : List Command) (s : State σ) (i : Nat) (status : Lifecycle.WaitStatus) :
    Option (State σ) :=
  (Pipeline.step pipeline s.exec (.ends i status)).map fun e => { s with exec := e }

def step (setup : Setup σ) (pipeline : List Command) (s : State σ) : Action → Option (State σ)
  | .call a =>
      if isCall a then (Pipeline.step pipeline s.exec a).map fun e => { s with exec := e }
      else none
  | .read i k => match (running s i).bind (·.table.lookup 0) with
    | none => none
    | some d =>
        if 0 < k ∧ k ≤ (available setup s i d).length then
          some (setProc (take s k d) i ((s.procs i).fill ((available setup s i d).take k)))
        else none
  | .readEnd i => match (running s i).bind (·.table.lookup 0) with
    | none => none
    | some d =>
        -- to read again changes nothing
        if ended setup s i d ∧ (s.procs i).sawEnd = false then
          some (setProc s i (s.procs i).see)
        else none
  | .work i => match running s i with
    | none => none
    | some _ => ((s.procs i).tick setup.prog).map (setProc s i)
  | .write i k => match (running s i).bind (·.table.lookup 1) with
    | none => none
    | some d =>
        if (0 < k ∧ k ≤ (s.procs i).unwritten.length) ∧ accepts setup s k d then
          some (setProc (put s ((s.procs i).unwritten.take k) d) i ((s.procs i).flush k))
        else none
  | .exit i => match setup.prog (s.procs i).state with
    | .stop status =>
        if (s.procs i).unwritten = [] then endChild pipeline s i (.exited status) else none
    | _ => none
  | .sigpipe i => match (running s i).bind (·.table.lookup 1) with
    | none => none
    | some d =>
        if (s.procs i).unwritten ≠ [] ∧ broken s d then endChild pipeline s i (.signaled 13)
        else none

/-- The transitions of `step`. -/
inductive Moves (setup : Setup σ) (pipeline : List Command) (s : State σ) :
    Action → State σ → Prop
  | calls (a : Pipeline.Action) (e : Pipeline.State) (ha : isCall a = true)
      (he : Pipeline.step pipeline s.exec a = some e) :
      Moves setup pipeline s (.call a) { s with exec := e }
  | reads (i k : Nat) (c : Child) (d : Desc) (hc : running s i = some c)
      (hd : c.table.lookup 0 = some d) (hk : 0 < k ∧ k ≤ (available setup s i d).length) :
      Moves setup pipeline s (.read i k)
        (setProc (take s k d) i ((s.procs i).fill ((available setup s i d).take k)))
  | readsEnd (i : Nat) (c : Child) (d : Desc) (hc : running s i = some c)
      (hd : c.table.lookup 0 = some d) (hend : ended setup s i d = true)
      (hnew : (s.procs i).sawEnd = false) :
      Moves setup pipeline s (.readEnd i) (setProc s i (s.procs i).see)
  | works (i : Nat) (c : Child) (p : Process UInt8 σ) (hc : running s i = some c)
      (hp : (s.procs i).tick setup.prog = some p) :
      Moves setup pipeline s (.work i) (setProc s i p)
  | writes (i k : Nat) (c : Child) (d : Desc) (hc : running s i = some c)
      (hd : c.table.lookup 1 = some d) (hk : 0 < k ∧ k ≤ (s.procs i).unwritten.length)
      (hroom : accepts setup s k d = true) :
      Moves setup pipeline s (.write i k)
        (setProc (put s ((s.procs i).unwritten.take k) d) i ((s.procs i).flush k))
  | exits (i : Nat) (c : Child) (status : UInt8) (hc : running s i = some c)
      (hstop : setup.prog (s.procs i).state = .stop status)
      (hdone : (s.procs i).unwritten = []) :
      Moves setup pipeline s (.exit i) { s with exec := { s.exec with
        children := s.exec.children.set i { c with status := .zombie (.exited status) } } }
  | breaks (i : Nat) (c : Child) (d : Desc) (hc : running s i = some c)
      (hd : c.table.lookup 1 = some d) (hleft : (s.procs i).unwritten ≠ [])
      (hbroken : broken s d = true) :
      Moves setup pipeline s (.sigpipe i) { s with exec := { s.exec with
        children := s.exec.children.set i { c with status := .zombie (.signaled 13) } } }

theorem running_eq_some {s : State σ} {i : Nat} {c : Child} :
    running s i = some c ↔ s.exec.children[i]? = some c ∧ c.status = .running := by
  rw [running, Option.filter_eq_some_iff, isRunning, decide_eq_true_eq]

theorem endChild_eq_some {pipeline : List Command} {s t : State σ} {i : Nat}
    {status : Lifecycle.WaitStatus} (h : endChild pipeline s i status = some t) :
    ∃ c, running s i = some c ∧ t = { s with exec := { s.exec with
      children := s.exec.children.set i { c with status := .zombie status } } } := by
  rcases Option.map_eq_some_iff.mp h with ⟨e, he, rfl⟩
  cases Pipeline.moves_of_step he with
  | ended _ c _ hk hc => exact ⟨c, running_eq_some.mpr ⟨hk, hc⟩, rfl⟩

theorem moves_of_step {setup : Setup σ} {pipeline : List Command} {s t : State σ} {a : Action}
    (h : step setup pipeline s a = some t) : Moves setup pipeline s a t := by
  -- the child that makes a system call, and what its descriptor refers to
  have hopen : ∀ {i m : Nat} {d : Desc}, (running s i).bind (·.table.lookup m) = some d →
      ∃ c, running s i = some c ∧ c.table.lookup m = some d := Option.bind_eq_some_iff.mp
  cases a with
  | call a =>
      simp only [step, Option.ite_none_right_eq_some, Option.map_eq_some_iff] at h
      rcases h with ⟨ha, e, he, rfl⟩
      exact .calls a e ha he
  | read i k =>
      cases hd : (running s i).bind (·.table.lookup 0) with
      | none => simp only [step, hd, reduceCtorEq] at h
      | some d =>
          rcases hopen hd with ⟨c, hc, hlookup⟩
          simp only [step, hd, Option.ite_none_right_eq_some, Option.some.injEq] at h
          exact h.2 ▸ .reads i k c d hc hlookup h.1
  | readEnd i =>
      cases hd : (running s i).bind (·.table.lookup 0) with
      | none => simp only [step, hd, reduceCtorEq] at h
      | some d =>
          rcases hopen hd with ⟨c, hc, hlookup⟩
          simp only [step, hd, Option.ite_none_right_eq_some, Option.some.injEq] at h
          exact h.2 ▸ .readsEnd i c d hc hlookup h.1.1 h.1.2
  | work i =>
      cases hc : running s i with
      | none => simp only [step, hc, reduceCtorEq] at h
      | some c =>
          simp only [step, hc, Option.map_eq_some_iff] at h
          rcases h with ⟨p, hp, rfl⟩
          exact .works i c p hc hp
  | write i k =>
      cases hd : (running s i).bind (·.table.lookup 1) with
      | none => simp only [step, hd, reduceCtorEq] at h
      | some d =>
          rcases hopen hd with ⟨c, hc, hlookup⟩
          simp only [step, hd, Option.ite_none_right_eq_some, Option.some.injEq] at h
          exact h.2 ▸ .writes i k c d hc hlookup h.1.1 h.1.2
  | exit i =>
      cases hstop : setup.prog (s.procs i).state <;>
        simp only [step, hstop, reduceCtorEq, Option.ite_none_right_eq_some] at h
      rcases endChild_eq_some h.2 with ⟨c, hc, rfl⟩
      exact .exits i c _ hc hstop h.1
  | sigpipe i =>
      cases hd : (running s i).bind (·.table.lookup 1) with
      | none => simp only [step, hd, reduceCtorEq] at h
      | some d =>
          rcases hopen hd with ⟨c, hc, hlookup⟩
          simp only [step, hd, Option.ite_none_right_eq_some] at h
          rcases endChild_eq_some h.2 with ⟨c', hc', rfl⟩
          obtain rfl : c = c' := Option.some.inj (hc.symm.trans hc')
          exact .breaks i c d hc hlookup h.1.1 h.1.2

/-- `executePipeline` is called. -/
def init (setup : Setup σ) (pipeline : List Command) (entry : Table Nat) : State σ where
  exec := Pipeline.init pipeline entry
  procs := fun i => Process.fresh (setup.start i)
  pipes := fun _ => []

end Plumbing

end Isolyx
