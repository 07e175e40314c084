import Isolyx.Core.Command
import Isolyx.Library.Run

/-!
# The Life of a Job's Process

One job whose command is a program, from the queue to its result, over any
number of bursts: `Executor::execute`, `LinuxNamespaceIsolator::isolateAndRun`
and the branch of `workerLoop` that requeues. An action is one step of the
worker that holds the job, of the job's process, of the thread of a watchdog,
or of someone else. Other jobs do not appear, except that one may be a `cd`,
which moves the whole engine to another directory.

`execute` makes a limiter and a watchdog for every burst and destroys them when
it returns, the watchdog first. The limiter's destructor kills whatever is in
its cgroup. `isolateAndRun` starts the process in the burst that launches the
job and sends `SIGCONT` in every later one. What a destructor or the wait does
to the process is one step, and every system call made here succeeds; a
launched process has joined its limiter's cgroup once `applyToPid` returns.

The process starts in the engine's process group and makes its own on the way
to the program; later it may leave that group and come back. A signal to the
group reaches it only while it leads it. Only the engine stops it, but another
process of the sandbox may continue it. The first sample of a watchdog and its
timeout come after the launch is over.

The bytes the process wrote stand for the two files the engine collects. The
path they are read from is made from the engine's directory anew in every
burst, and a directory other than the one of the launch has files of its own
at that path, or none, which reads as no bytes.

## Main definitions

* `Process`: The job's process as the kernel sees it.
* `Phase`: Where the worker is.
* `Action`: One step.
* `step`: The transition function.
* `Moves`: Its transitions, one by one.
* `init`: The job is in the deque and was never launched.
-/

namespace Isolyx

namespace Lifecycle

/-- What `waitpid` reports of a process that is gone. -/
inductive WaitStatus where
  | exited (code : UInt8)
  | signaled (sig : Nat)
  deriving DecidableEq, Repr

/-- The job's process. `leader` says that it is in the process group of its own
    pid, `reported` that a wait has seen the stop. -/
inductive Process where
  | absent
  /-- Cloned, and blocked in the read of the sync byte. -/
  | entering
  | running (leader : Bool)
  | stopped (leader reported : Bool)
  | zombie (status : WaitStatus)
  | reaped
  deriving DecidableEq, Repr

namespace Process

/-- Past the sync byte and not stopped. -/
def runnable : Process → Bool
  | running _ => true
  | _ => false

/-- The process has not ended. -/
def alive : Process → Bool
  | entering | running _ | stopped _ _ => true
  | absent | zombie _ | reaped => false

/-- The sync byte arrives. -/
def enter : Process → Process
  | entering => running false
  | p => p

/-- `kill(-pid, SIGSTOP)`. -/
def stopGroup : Process → Process
  | running true => stopped true false
  | p => p

/-- `kill(-pid, SIGCONT)`. -/
def continueGroup : Process → Process
  | stopped true _ => running true
  | p => p

/-- `kill(pid, SIGKILL)`, which a stopped process does not survive either. -/
def kill (p : Process) : Process := if p.alive then zombie (.signaled 9) else p

end Process

/-- A watchdog object. -/
inductive Watchdog where
  /-- Constructed, and not started on any pid. -/
  | idle
  | running
  | stopped
  deriving DecidableEq, Repr

/-- What a process does that its result shows. -/
inductive Work where
  | compute
  | writeOut (bytes : Bytes)
  | writeErr (bytes : Bytes)
  deriving DecidableEq, Repr

def Work.out : Work → Bytes
  | writeOut bytes => bytes
  | compute | writeErr _ => []

def Work.err : Work → Bytes
  | writeErr bytes => bytes
  | compute | writeOut _ => []

/-- Where the worker is, with the result as far as it is filled in. -/
inductive Phase where
  /-- The job is in the deque. -/
  | queued
  /-- The objects of the burst are made; `isolateAndRun` is entered. -/
  | made
  | cloned
  /-- `applyToPid` has returned. -/
  | limited
  /-- `watchdog->start` has returned. -/
  | watched
  /-- In the wait, `elapsed` milliseconds into the quantum. -/
  | waiting (elapsed : Nat)
  /-- The wait saw the end of the process. -/
  | ended (res : ExecutionResult)
  /-- `isolateAndRun` has returned; the watchdog is destroyed next. -/
  | returned (res : ExecutionResult)
  /-- The limiter is destroyed next. -/
  | unwatched (res : ExecutionResult)
  /-- `execute` has returned a result that is not a preemption. -/
  | done (res : ExecutionResult)
  deriving DecidableEq, Repr

/-- How the executor is configured, the quantum of the job, and the files a
    directory other than the one of the launch holds at the paths read. -/
structure Config where
  limiter : Bool
  watchdog : Bool
  timeQuantum : Int
  elsewhere : Nat → Bytes × Bytes

structure State where
  phase : Phase
  /-- `job.pid > 0`. -/
  launched : Bool
  process : Process
  /-- The limiter whose cgroup the process was put in. -/
  member : Option Nat
  /-- The limiter of the burst under way. -/
  limiter : Option Nat
  /-- The watchdog of the burst under way. -/
  watchdog : Option Watchdog
  bursts : Nat
  /-- The engine's working directory. -/
  cwd : Nat
  /-- The directory of `absolute_rootfs` in the burst under way. -/
  rootfs : Nat
  /-- The directory the process was launched in. -/
  home : Nat
  out : Bytes
  err : Bytes
  /-- What the process has done. -/
  trace : List Work

inductive Action where
  | dequeue
  | clone
  | applyToPid
  | startWatchdog
  | sync
  | resume
  /-- One turn of the loop that waits without blocking. -/
  | poll
  /-- The wait that blocks. -/
  | waitpid
  | collect
  | destroyWatchdog
  | destroyLimiter
  /-- The watchdog kills the process. -/
  | fires
  | work (w : Work)
  | exits (code : UInt8)
  /-- A signal of its own or of the kernel ends the process. -/
  | dies (sig : Nat)
  /-- The process makes, leaves or rejoins its own group. -/
  | group (leader : Bool)
  /-- Another process of the sandbox sends `SIGCONT`. -/
  | continued
  | cd (dir : Nat)
  deriving DecidableEq, Repr

/-- The fields of a result that come from the wait status. -/
def resultOf : WaitStatus → ExecutionResult
  | .exited code => { exitCode := code.toNat, success := code == 0 }
  | .signaled sig => { termSignal := sig, success := false }

/-- The process is in the cgroup of the limiter of the burst. -/
def State.held (s : State) : Bool := s.limiter.isSome && s.member == s.limiter

/-- What the paths read below a directory hold. -/
def State.files (cfg : Config) (s : State) : Bytes × Bytes :=
  if s.rootfs = s.home then (s.out, s.err) else cfg.elsewhere s.rootfs

/-- The objects `execute` makes, and the path `isolateAndRun` prepares. -/
def begin (cfg : Config) (s : State) : State :=
  { s with
    -- both objects are new in every burst, and so is the absolute path
    phase := .made
    limiter := if cfg.limiter then some s.bursts else none
    watchdog := if cfg.watchdog then some .idle else none
    bursts := s.bursts + 1
    rootfs := s.cwd }

/-- The two calls of `read_and_delete`, and the stop of the watchdog before. -/
def collect (cfg : Config) (s : State) (r : ExecutionResult) : State :=
  { s with
    phase := .returned { r with
      stdoutOut := (s.files cfg).1
      stderrOut := (s.files cfg).2 }
    watchdog := s.watchdog.map fun _ => .stopped }

/-- The limiter's destructor, and what `workerLoop` does next. -/
def leave (s : State) (r : ExecutionResult) : State :=
  { s with
    phase := if r.preempted then .queued else .done r
    limiter := none
    process := if s.held then s.process.kill else s.process }

def doWork (s : State) (w : Work) : State :=
  { s with out := s.out ++ w.out, err := s.err ++ w.err, trace := s.trace ++ [w] }

def step (cfg : Config) (s : State) : Action → Option State
  | .dequeue => match s.phase with
      | .queued => some (begin cfg s)
      | _ => none
  | .clone => match s.phase with
      | .made =>
          if s.launched then none
          else some { s with
            phase := .cloned
            launched := true
            process := .entering
            home := s.rootfs }
      | _ => none
  | .applyToPid => match s.phase with
      | .cloned => some { s with phase := .limited, member := s.limiter }
      | _ => none
  | .startWatchdog => match s.phase with
      | .limited => some { s with
          phase := .watched
          watchdog := s.watchdog.map fun _ => .running }
      | _ => none
  | .sync => match s.phase with
      | .watched => some { s with phase := .waiting 0, process := s.process.enter }
      | _ => none
  | .resume => match s.phase with
      | .made =>
          -- neither the limiter nor the watchdog of this burst is used
          if s.launched then some { s with phase := .waiting 0, process := s.process.continueGroup }
          else none
      | _ => none
  | .poll => match s.phase with
      | .waiting elapsed =>
          if 0 < cfg.timeQuantum then
            match s.process with
            -- `WNOHANG | WUNTRACED`: a stop is reported once, an end is reaped
            | .zombie status => some { s with
                phase := .ended (resultOf status)
                process := .reaped }
            | .stopped leader false => some { s with
                phase := .returned { preempted := true }
                process := .stopped leader true }
            | p =>
                -- the clock stands from here on, so every later turn sends `SIGSTOP` again
                if cfg.timeQuantum ≤ elapsed then some { s with process := p.stopGroup }
                else some { s with phase := .waiting (elapsed + 1) }
          else none
      | _ => none
  | .waitpid => match s.phase with
      | .waiting _ =>
          if 0 < cfg.timeQuantum then none
          else match s.process with
            | .zombie status => some { s with
                phase := .ended (resultOf status)
                process := .reaped }
            | _ => none
      | _ => none
  | .collect => match s.phase with
      | .ended r => some (collect cfg s r)
      | _ => none
  | .destroyWatchdog => match s.phase with
      | .returned r => some { s with phase := .unwatched r, watchdog := none }
      | _ => none
  | .destroyLimiter => match s.phase with
      | .unwatched r => some (leave s r)
      | _ => none
  | .fires =>
      -- the process may be gone by then; its pid is signalled all the same
      if s.watchdog = some .running ∧ s.process ≠ .entering then
        some { s with process := s.process.kill }
      else none
  | .work w => if s.process.runnable then some (doWork s w) else none
  | .exits code =>
      if s.process.runnable then some { s with process := .zombie (.exited code) } else none
  | .dies sig =>
      -- a stopped process dies of a signal as well
      if s.process.alive ∧ s.process ≠ .entering then
        some { s with process := .zombie (.signaled sig) }
      else none
  | .group leader =>
      if s.process.runnable then some { s with process := .running leader } else none
  | .continued => match s.process with
      | .stopped leader _ => some { s with process := .running leader }
      | _ => none
  | .cd dir => some { s with cwd := dir }

/-- The transitions of `step`, one constructor for each outcome of an action. -/
inductive Moves (cfg : Config) (s : State) : Action → State → Prop
  | dequeues (hp : s.phase = .queued) : Moves cfg s .dequeue (begin cfg s)
  | clones (hp : s.phase = .made) (hl : s.launched = false) :
      Moves cfg s .clone { s with
        phase := .cloned, launched := true, process := .entering, home := s.rootfs }
  | applies (hp : s.phase = .cloned) :
      Moves cfg s .applyToPid { s with phase := .limited, member := s.limiter }
  | starts (hp : s.phase = .limited) :
      Moves cfg s .startWatchdog { s with
        phase := .watched, watchdog := s.watchdog.map fun _ => .running }
  | syncs (hp : s.phase = .watched) :
      Moves cfg s .sync { s with phase := .waiting 0, process := s.process.enter }
  | resumes (hp : s.phase = .made) (hl : s.launched = true) :
      Moves cfg s .resume { s with phase := .waiting 0, process := s.process.continueGroup }
  | pollsEnd (elapsed : Nat) (status : WaitStatus) (hp : s.phase = .waiting elapsed)
      (hq : 0 < cfg.timeQuantum) (hz : s.process = .zombie status) :
      Moves cfg s .poll { s with phase := .ended (resultOf status), process := .reaped }
  | pollsStop (elapsed : Nat) (leader : Bool) (hp : s.phase = .waiting elapsed)
      (hq : 0 < cfg.timeQuantum) (hz : s.process = .stopped leader false) :
      Moves cfg s .poll { s with
        phase := .returned { preempted := true }, process := .stopped leader true }
  | pollsExpired (elapsed : Nat) (hp : s.phase = .waiting elapsed) (hq : 0 < cfg.timeQuantum) :
      Moves cfg s .poll { s with phase := .waiting elapsed, process := s.process.stopGroup }
  | pollsOn (elapsed : Nat) (hp : s.phase = .waiting elapsed) (hq : 0 < cfg.timeQuantum) :
      Moves cfg s .poll { s with phase := .waiting (elapsed + 1) }
  | waits (elapsed : Nat) (status : WaitStatus) (hp : s.phase = .waiting elapsed)
      (hz : s.process = .zombie status) :
      Moves cfg s .waitpid { s with phase := .ended (resultOf status), process := .reaped }
  | collects (r : ExecutionResult) (hp : s.phase = .ended r) :
      Moves cfg s .collect (collect cfg s r)
  | unwatches (r : ExecutionResult) (hp : s.phase = .returned r) :
      Moves cfg s .destroyWatchdog { s with phase := .unwatched r, watchdog := none }
  | leaves (r : ExecutionResult) (hp : s.phase = .unwatched r) :
      Moves cfg s .destroyLimiter (leave s r)
  | fires (hw : s.watchdog = some .running) (hz : s.process ≠ .entering) :
      Moves cfg s .fires { s with process := s.process.kill }
  | works (w : Work) (hz : s.process.runnable = true) : Moves cfg s (.work w) (doWork s w)
  | exits (code : UInt8) (hz : s.process.runnable = true) :
      Moves cfg s (.exits code) { s with process := .zombie (.exited code) }
  | dies (sig : Nat) (hz : s.process.alive = true) (he : s.process ≠ .entering) :
      Moves cfg s (.dies sig) { s with process := .zombie (.signaled sig) }
  | groups (leader : Bool) (hz : s.process.runnable = true) :
      Moves cfg s (.group leader) { s with process := .running leader }
  | continues (leader reported : Bool) (hz : s.process = .stopped leader reported) :
      Moves cfg s .continued { s with process := .running leader }
  | changes (dir : Nat) : Moves cfg s (.cd dir) { s with cwd := dir }

theorem moves_of_step {cfg : Config} {s t : State} {a : Action} (h : step cfg s a = some t) :
    Moves cfg s a t := by
  cases a with
  | dequeue =>
      cases hp : s.phase <;> simp only [step, hp, reduceCtorEq, Option.some.injEq] at h
      exact h ▸ .dequeues hp
  | clone =>
      cases hp : s.phase <;> simp only [step, hp, reduceCtorEq] at h
      rw [Option.ite_none_left_eq_some, Option.some.injEq, Bool.not_eq_true] at h
      exact h.2 ▸ .clones hp h.1
  | applyToPid =>
      cases hp : s.phase <;> simp only [step, hp, reduceCtorEq, Option.some.injEq] at h
      exact h ▸ .applies hp
  | startWatchdog =>
      cases hp : s.phase <;> simp only [step, hp, reduceCtorEq, Option.some.injEq] at h
      exact h ▸ .starts hp
  | sync =>
      cases hp : s.phase <;> simp only [step, hp, reduceCtorEq, Option.some.injEq] at h
      exact h ▸ .syncs hp
  | resume =>
      cases hp : s.phase <;> simp only [step, hp, reduceCtorEq] at h
      rw [Option.ite_none_right_eq_some, Option.some.injEq] at h
      exact h.2 ▸ .resumes hp h.1
  | poll =>
      cases hp : s.phase <;> simp only [step, hp, reduceCtorEq] at h
      rename_i elapsed
      rw [Option.ite_none_right_eq_some] at h
      rcases h with ⟨hq, h⟩
      split at h
      · rename_i status hz
        exact Option.some.inj h ▸ .pollsEnd elapsed status hp hq hz
      · rename_i leader hz
        exact Option.some.inj h ▸ .pollsStop elapsed leader hp hq hz
      · split at h
        · exact Option.some.inj h ▸ .pollsExpired elapsed hp hq
        · exact Option.some.inj h ▸ .pollsOn elapsed hp hq
  | waitpid =>
      cases hp : s.phase <;> simp only [step, hp, reduceCtorEq] at h
      rename_i elapsed
      rw [Option.ite_none_left_eq_some] at h
      rcases h with ⟨_, h⟩
      cases hz : s.process <;> simp only [hz, reduceCtorEq, Option.some.injEq] at h
      exact h ▸ .waits elapsed _ hp hz
  | collect =>
      cases hp : s.phase <;> simp only [step, hp, reduceCtorEq, Option.some.injEq] at h
      exact h ▸ .collects _ hp
  | destroyWatchdog =>
      cases hp : s.phase <;> simp only [step, hp, reduceCtorEq, Option.some.injEq] at h
      exact h ▸ .unwatches _ hp
  | destroyLimiter =>
      cases hp : s.phase <;> simp only [step, hp, reduceCtorEq, Option.some.injEq] at h
      exact h ▸ .leaves _ hp
  | fires =>
      simp only [step, Option.ite_none_right_eq_some, Option.some.injEq] at h
      exact h.2 ▸ .fires h.1.1 h.1.2
  | work w =>
      simp only [step, Option.ite_none_right_eq_some, Option.some.injEq] at h
      exact h.2 ▸ .works w h.1
  | exits code =>
      simp only [step, Option.ite_none_right_eq_some, Option.some.injEq] at h
      exact h.2 ▸ .exits code h.1
  | dies sig =>
      simp only [step, Option.ite_none_right_eq_some, Option.some.injEq] at h
      exact h.2 ▸ .dies sig h.1.1 h.1.2
  | group leader =>
      simp only [step, Option.ite_none_right_eq_some, Option.some.injEq] at h
      exact h.2 ▸ .groups leader h.1
  | continued =>
      cases hz : s.process <;> simp only [step, hz, reduceCtorEq, Option.some.injEq] at h
      exact h ▸ .continues _ _ hz
  | cd dir =>
      simp only [step, Option.some.injEq] at h
      exact h ▸ .changes dir

/-- The job is in the deque and was never launched; the engine is in a directory. -/
def init (dir : Nat) : State where
  phase := .queued
  launched := false
  process := .absent
  member := none
  limiter := none
  watchdog := none
  bursts := 0
  cwd := dir
  rootfs := dir
  home := dir
  out := []
  err := []
  trace := []

end Lifecycle

end Isolyx
