import Isolyx.Library.Run
import Mathlib.Logic.Function.Basic
import Mathlib.Tactic.Common

/-!
# The Launch Handshake

How a child learns that its launch is ready: the launch branch of
`isolateAndRun` on any number of workers at once, the read at the top of
`child_entry`, and the descriptors everybody holds meanwhile. The workers are
threads of one process and share one table. A clone without `CLONE_FILES` gives
the child a copy of the whole of it, the ends of other launches' pipes
included, and an `execvp` keeps it, so a program runs with every end its child
was cloned with except the read end of its own pipe, which `child_entry`
closes. A program and what it forks are one holder, and hold an end as long as
one of them does.

A read of an empty pipe returns end of file when nobody holds the write end,
and blocks otherwise. A write that nobody can read raises `SIGPIPE`, which ends
the engine. The engine may also end at any other moment.

The state keeps a history next to what the processes hold: how far each launch
got, and which byte was written by the parent of the pipe. No step reads it.

## Main definitions

* `Stage`: How far a launch is.
* `Worker`: Where a worker is.
* `Child`: A process that was cloned, with its descriptors.
* `step`: The transition function.
* `Moves`: Its transitions, one by one.
* `Ready`: The parent did all that comes before the byte.
* `init`: Nothing was launched yet.
-/

namespace Isolyx

namespace Handshake

/-- An end of a pipe. -/
structure Fd where
  pipe : Nat
  write : Bool
  deriving DecidableEq, Repr

/-- How far a launch is, after the clone. -/
inductive Stage where
  | cloned
  /-- `applyToPid` has returned. -/
  | limited
  /-- `watchdog->start` has returned. -/
  | watched
  /-- The engine's read end is closed. -/
  | readClosed
  /-- The uid map was written, or could not be. -/
  | uidMapped
  /-- The gid map was written, or could not be. -/
  | gidMapped
  /-- The byte was written, or could not be. -/
  | wrote
  deriving DecidableEq, Repr

/-- The stage the next call leads to, up to the byte. -/
def Stage.next : Stage → Option Stage
  | cloned => some limited
  | limited => some watched
  | watched => some readClosed
  | readClosed => some uidMapped
  | uidMapped => some gidMapped
  | gidMapped | wrote => none

def Stage.rank : Stage → Nat
  | cloned => 0
  | limited => 1
  | watched => 2
  | readClosed => 3
  | uidMapped => 4
  | gidMapped => 5
  | wrote => 6

/-- Where a worker is. -/
inductive Worker where
  | idle
  /-- `pipe` has returned. -/
  | piped (pipe : Nat)
  | launching (pipe child : Nat) (stage : Stage)
  deriving DecidableEq, Repr

/-- The pipe of the launch under way. -/
def Worker.pipe? : Worker → Option Nat
  | idle => none
  | piped pipe | launching pipe _ _ => some pipe

inductive Phase where
  | absent
  /-- In the read of the sync byte. -/
  | blocked
  /-- Past it: in the rest of `child_entry`, or the program itself. -/
  | running
  | dead
  deriving DecidableEq, Repr

/-- A process that was cloned, with its descriptors. -/
structure Child where
  phase : Phase
  pipe : Nat
  table : List Fd
  deriving DecidableEq, Repr

structure State (n : Nat) where
  alive : Bool
  /-- The descriptors of the engine. -/
  table : List Fd
  workers : Fin n → Worker
  children : Nat → Child
  nextPipe : Nat
  nextChild : Nat
  /-- How many bytes each pipe holds. -/
  bytes : Nat → Nat
  attempts : List (Nat × Stage)
  written : List Nat

inductive Action (n : Nat) where
  | pipe (w : Fin n)
  /-- `clone`, or its failure, which leaves the pipe open. -/
  | clone (w : Fin n) (succeeds : Bool)
  /-- The next call of the launch, up to the byte. -/
  | proceed (w : Fin n)
  | writeSync (w : Fin n) (succeeds : Bool)
  | closeWrite (w : Fin n)
  /-- The engine ends. -/
  | engineDies
  | readSync (c : Nat)
  | programWrites (c pipe : Nat)
  | programReads (c pipe : Nat)
  | programCloses (c : Nat) (fd : Fd)
  /-- A child or a program ends. -/
  | childDies (c : Nat)
  deriving DecidableEq, Repr

variable {n : Nat}

/-- Somebody holds the end. -/
def held (s : State n) (fd : Fd) : Bool :=
  s.table.contains fd || (List.range s.nextChild).any fun c => (s.children c).table.contains fd

def close (fd : Fd) (table : List Fd) : List Fd := table.filter fun x => x ≠ fd

def setWorker (s : State n) (w : Fin n) (v : Worker) : State n :=
  { s with workers := Function.update s.workers w v }

def setChild (s : State n) (c : Nat) (v : Child) : State n :=
  { s with children := Function.update s.children c v }

def setBytes (s : State n) (pipe count : Nat) : State n :=
  { s with bytes := Function.update s.bytes pipe count }

/-- The end of the engine closes what it held. -/
def dies (s : State n) : State n := { s with alive := false, table := [] }

/-- What is left of a process that ended. -/
def gone (v : Child) : Child := { v with phase := .dead, table := [] }

/-- The calls between the clone and the byte. -/
def proceed (s : State n) (w : Fin n) (pipe child : Nat) (stage : Stage) : State n :=
  { setWorker s w (.launching pipe child stage) with
    table := if stage = .readClosed then close ⟨pipe, false⟩ s.table else s.table
    attempts := (pipe, stage) :: s.attempts }

def step (s : State n) : Action n → Option (State n)
  | .pipe w => match s.alive, s.workers w with
      | true, .idle => some { setWorker s w (.piped s.nextPipe) with
          table := ⟨s.nextPipe, false⟩ :: ⟨s.nextPipe, true⟩ :: s.table
          nextPipe := s.nextPipe + 1 }
      | _, _ => none
  | .clone w succeeds => match s.alive, s.workers w with
      | true, .piped pipe =>
          if succeeds then
            some { setChild (setWorker s w (.launching pipe s.nextChild .cloned)) s.nextChild
                ⟨.blocked, pipe, s.table⟩ with
              nextChild := s.nextChild + 1 }
          else some (setWorker s w .idle)
      | _, _ => none
  | .proceed w => match s.alive, s.workers w with
      | true, .launching pipe child stage =>
          stage.next.map fun stage' => proceed s w pipe child stage'
      | _, _ => none
  | .writeSync w succeeds => match s.alive, s.workers w with
      | true, .launching pipe child .gidMapped =>
          -- nobody is left to read it
          if held s ⟨pipe, false⟩ = false then some (dies s)
          else if succeeds then
            some { setBytes (setWorker s w (.launching pipe child .wrote)) pipe
                (s.bytes pipe + 1) with
              written := pipe :: s.written }
          else some (setWorker s w (.launching pipe child .wrote))
      | _, _ => none
  | .closeWrite w => match s.alive, s.workers w with
      | true, .launching pipe _ .wrote =>
          some { setWorker s w .idle with table := close ⟨pipe, true⟩ s.table }
      | _, _ => none
  | .engineDies => if s.alive then some (dies s) else none
  | .readSync c =>
      let v := s.children c
      if v.phase ≠ .blocked then none
      else if 0 < s.bytes v.pipe then
        -- `close(args->sync_fd)` comes next
        some (setBytes (setChild s c { v with
          phase := .running
          table := close ⟨v.pipe, false⟩ v.table }) v.pipe (s.bytes v.pipe - 1))
      -- end of file: `child_entry` returns -1
      else if held s ⟨v.pipe, true⟩ = false then some (setChild s c (gone v))
      else none
  | .programWrites c pipe =>
      if (s.children c).phase = .running ∧ ⟨pipe, true⟩ ∈ (s.children c).table then
        some (setBytes s pipe (s.bytes pipe + 1))
      else none
  | .programReads c pipe =>
      if (s.children c).phase = .running ∧ ⟨pipe, false⟩ ∈ (s.children c).table ∧
          0 < s.bytes pipe then
        some (setBytes s pipe (s.bytes pipe - 1))
      else none
  | .programCloses c fd =>
      if (s.children c).phase = .running then
        some (setChild s c { s.children c with table := close fd (s.children c).table })
      else none
  | .childDies c =>
      if (s.children c).phase = .blocked ∨ (s.children c).phase = .running then
        some (setChild s c (gone (s.children c)))
      else none

/-- The transitions of `step`, one constructor for each outcome of an action. -/
inductive Moves (s : State n) : Action n → State n → Prop
  | pipes (w : Fin n) (ha : s.alive = true) (hw : s.workers w = .idle) :
      Moves s (.pipe w) { setWorker s w (.piped s.nextPipe) with
        table := ⟨s.nextPipe, false⟩ :: ⟨s.nextPipe, true⟩ :: s.table
        nextPipe := s.nextPipe + 1 }
  | clones (w : Fin n) (pipe : Nat) (ha : s.alive = true) (hw : s.workers w = .piped pipe) :
      Moves s (.clone w true)
        { setChild (setWorker s w (.launching pipe s.nextChild .cloned)) s.nextChild
            ⟨.blocked, pipe, s.table⟩ with
          nextChild := s.nextChild + 1 }
  | cloneFails (w : Fin n) (pipe : Nat) (ha : s.alive = true) (hw : s.workers w = .piped pipe) :
      Moves s (.clone w false) (setWorker s w .idle)
  | proceeds (w : Fin n) (pipe child : Nat) (stage stage' : Stage) (ha : s.alive = true)
      (hw : s.workers w = .launching pipe child stage) (hn : stage.next = some stage') :
      Moves s (.proceed w) (proceed s w pipe child stage')
  | writesNobody (w : Fin n) (succeeds : Bool) (pipe child : Nat) (ha : s.alive = true)
      (hw : s.workers w = .launching pipe child .gidMapped) (hh : held s ⟨pipe, false⟩ = false) :
      Moves s (.writeSync w succeeds) (dies s)
  | writes (w : Fin n) (pipe child : Nat) (ha : s.alive = true)
      (hw : s.workers w = .launching pipe child .gidMapped) (hh : held s ⟨pipe, false⟩ = true) :
      Moves s (.writeSync w true)
        { setBytes (setWorker s w (.launching pipe child .wrote)) pipe (s.bytes pipe + 1) with
          written := pipe :: s.written }
  | writeFails (w : Fin n) (pipe child : Nat) (ha : s.alive = true)
      (hw : s.workers w = .launching pipe child .gidMapped) (hh : held s ⟨pipe, false⟩ = true) :
      Moves s (.writeSync w false) (setWorker s w (.launching pipe child .wrote))
  | closes (w : Fin n) (pipe child : Nat) (ha : s.alive = true)
      (hw : s.workers w = .launching pipe child .wrote) :
      Moves s (.closeWrite w)
        { setWorker s w .idle with table := close ⟨pipe, true⟩ s.table }
  | dies (ha : s.alive = true) : Moves s .engineDies (dies s)
  | passes (c : Nat) (hc : (s.children c).phase = .blocked)
      (hb : 0 < s.bytes (s.children c).pipe) :
      Moves s (.readSync c) (setBytes (setChild s c { s.children c with
        phase := .running
        table := close ⟨(s.children c).pipe, false⟩ (s.children c).table })
        (s.children c).pipe (s.bytes (s.children c).pipe - 1))
  | ends (c : Nat) (hc : (s.children c).phase = .blocked)
      (hb : s.bytes (s.children c).pipe = 0) (hh : held s ⟨(s.children c).pipe, true⟩ = false) :
      Moves s (.readSync c) (setChild s c (gone (s.children c)))
  | programWrites (c pipe : Nat) (hc : (s.children c).phase = .running)
      (ht : ⟨pipe, true⟩ ∈ (s.children c).table) :
      Moves s (.programWrites c pipe) (setBytes s pipe (s.bytes pipe + 1))
  | programReads (c pipe : Nat) (hc : (s.children c).phase = .running) (hb : 0 < s.bytes pipe) :
      Moves s (.programReads c pipe) (setBytes s pipe (s.bytes pipe - 1))
  | programCloses (c : Nat) (fd : Fd) (hc : (s.children c).phase = .running) :
      Moves s (.programCloses c fd)
        (setChild s c { s.children c with table := close fd (s.children c).table })
  | childDies (c : Nat) (hc : (s.children c).phase = .blocked ∨ (s.children c).phase = .running) :
      Moves s (.childDies c) (setChild s c (gone (s.children c)))

theorem moves_of_step {s t : State n} {a : Action n} (h : step s a = some t) : Moves s a t := by
  cases a with
  | pipe w =>
      cases ha : s.alive <;> cases hw : s.workers w <;>
        simp only [step, ha, hw, reduceCtorEq, Option.some.injEq] at h
      rw [← h]
      exact .pipes w ha hw
  | clone w succeeds =>
      cases ha : s.alive <;> cases hw : s.workers w <;>
        simp only [step, ha, hw, reduceCtorEq] at h
      cases succeeds with
      | true => exact Option.some.inj h ▸ .clones w _ ha hw
      | false => exact Option.some.inj h ▸ .cloneFails w _ ha hw
  | proceed w =>
      cases ha : s.alive <;> cases hw : s.workers w <;>
        simp only [step, ha, hw, reduceCtorEq, Option.map_eq_some_iff] at h
      rcases h with ⟨stage', hn, rfl⟩
      exact .proceeds w _ _ _ stage' ha hw hn
  | writeSync w succeeds =>
      simp only [step] at h
      split at h
      · rename_i ha hw
        split at h
        · rename_i hh
          exact Option.some.inj h ▸ .writesNobody w succeeds _ _ ha hw hh
        · rename_i hh
          have hread := Bool.not_eq_false _ ▸ hh
          cases succeeds with
          | true => exact Option.some.inj h ▸ .writes w _ _ ha hw hread
          | false => exact Option.some.inj h ▸ .writeFails w _ _ ha hw hread
      · simp only [reduceCtorEq] at h
  | closeWrite w =>
      simp only [step] at h
      split at h
      · rename_i ha hw
        exact Option.some.inj h ▸ .closes w _ _ ha hw
      · simp only [reduceCtorEq] at h
  | engineDies =>
      simp only [step, Option.ite_none_right_eq_some, Option.some.injEq] at h
      exact h.2 ▸ .dies h.1
  | readSync c =>
      simp only [step, ne_eq] at h
      rw [Option.ite_none_left_eq_some, not_not] at h
      rcases h with ⟨hc, h⟩
      split at h
      · rename_i hb
        exact Option.some.inj h ▸ .passes c hc hb
      · rename_i hb
        rw [Option.ite_none_right_eq_some, Option.some.injEq] at h
        exact h.2 ▸ .ends c hc (Nat.eq_zero_of_not_pos hb) h.1
  | programWrites c pipe =>
      simp only [step, Option.ite_none_right_eq_some, Option.some.injEq] at h
      exact h.2 ▸ .programWrites c pipe h.1.1 h.1.2
  | programReads c pipe =>
      simp only [step, Option.ite_none_right_eq_some, Option.some.injEq] at h
      exact h.2 ▸ .programReads c pipe h.1.1 h.1.2.2
  | programCloses c fd =>
      simp only [step, Option.ite_none_right_eq_some, Option.some.injEq] at h
      exact h.2 ▸ .programCloses c fd h.1
  | childDies c =>
      simp only [step, Option.ite_none_right_eq_some, Option.some.injEq] at h
      exact h.2 ▸ .childDies c h.1

/-- The parent called `applyToPid`, started the watchdog and attempted both id
    maps. -/
def Ready (s : State n) (pipe : Nat) : Prop :=
  ∀ stage ∈ [Stage.limited, .watched, .uidMapped, .gidMapped], (pipe, stage) ∈ s.attempts

/-- Nothing was launched yet. -/
def init (n : Nat) : State n where
  alive := true
  table := []
  workers := fun _ => .idle
  children := fun _ => ⟨.absent, 0, []⟩
  nextPipe := 0
  nextChild := 0
  bytes := fun _ => 0
  attempts := []
  written := []

end Handshake

end Isolyx
