import Isolyx.Core.Collector
import Isolyx.Core.Shutdown
import Isolyx.Library.Sections

/-!
# The Queue and the Collector, Lock by Lock

The pool as its threads run it. Where `Core.Pool` takes a critical section as
one step, here a thread takes `InMemoryJobQueue::mutex_`, goes through the
section one access after the other and gives the mutex back, and the other
threads go on meanwhile: those that need the mutex wait for it, and a waiter may
wake, a worker execute its job and `stop` call `notify_all` at any moment.
Nothing but the mutex keeps a thread from writing what another one is reading.
What a section has read it keeps, and writes back what follows from it.

`enqueue` calls `notify_one` when the job is in the deque and gives the mutex
back after that. `cv_.wait` gives the mutex back and blocks in one step, and
whoever wakes has to take the mutex before it tests the predicate again.

`ResultCollector::submitResult` holds a mutex of its own while it calls the
observers, which put out what they have to say in pieces: `LoggingObserver` one
for each operand of its `<<`, `DashboardObserver` the text and the newline. An
exception of `dump` leaves the thread's function and ends the engine.

The clients are the threads that call `enqueue`: `main`, its daemon thread, the
benchmark. There may be any number of them.

## Main definitions

* `dequeueBody`, `enqueueBody`, `stopBody`: The critical sections of the queue.
* `report`: What the observers put out for a result.
* `State`: The pool, the two mutexes and who is inside.
* `step`: The transition function.
* `Moves`: Its transitions.
* `shows`: The step of `Core.Shutdown` that a step completes.
-/

namespace Isolyx

namespace Locks

open Pool (Worker Submission setWorker notifyOne)
open Sections (Body Code Mutex)
open Collector (Observer)

/-! ## The critical sections of the queue -/

/-- What `InMemoryJobQueue::mutex_` protects. -/
structure Queue where
  jobs : List Job
  stopping : Bool

/-- How a critical section ends. -/
inductive Outcome where
  /-- In `cv_.wait`, which gives the mutex back and blocks. -/
  | blocks
  | departs
  | takes (job : Job)
  /-- A job was asked of an empty deque. -/
  | undefined
  | added
  | stopped

/-- `enqueue` up to `notify_one`: the deque as it was read, with the job at its end. -/
def enqueueBody (sched : Scheduler) (job : Job) : Body Queue Outcome :=
  .act id fun q =>
    .act (fun now => { now with jobs := sched.addJob q.jobs job }) fun _ => .ret .added

/-- `getNextJob`: the job is chosen, and then erased. -/
def chooseBody (sched : Scheduler) : Body Queue Outcome :=
  .act id fun q =>
    match sched.getNextJob q.jobs with
    | none => .ret .undefined
    | some (job, rest) => .act (fun now => { now with jobs := rest }) fun _ => .ret (.takes job)

/-- `dequeue` behind `cv_.wait`. -/
def leaveBody (sched : Scheduler) : Body Queue Outcome :=
  .act id fun q =>
    if q.stopping then
      .act id fun q' => if q'.jobs.isEmpty then .ret .departs else chooseBody sched
    else chooseBody sched

/-- `dequeue`, from where the predicate is tested. -/
def dequeueBody (sched : Scheduler) : Body Queue Outcome :=
  .act id fun q =>
    if q.jobs.isEmpty then
      .act id fun q' => if q'.stopping then leaveBody sched else .ret .blocks
    else leaveBody sched

/-- The critical section of `InMemoryJobQueue::stop`. -/
def stopBody : Body Queue Outcome :=
  .act (fun now => { now with stopping := true }) fun _ => .ret .stopped

/-! ## What the observers put out -/

inductive Piece where
  | put (o : Observer) (bytes : Bytes)
  /-- The observer throws. -/
  | throws
  deriving DecidableEq, Repr

/-- The operands of `<<` in `LoggingObserver::onResult`. -/
def loggingPieces (r : JobResult) : List Bytes := [
  ascii "[LoggingObserver] Job ", Json.dumpInteger r.jobId,
  ascii " (", r.commandLine, ascii ") finished.",
  ascii " Verdict: ", r.verdict.text,
  ascii ", Exit Code: ", Json.dumpInteger r.exitCode,
  ascii ", Signal: ", Json.dumpInteger r.termSignal, ascii "\n"]

/-- The pieces of one observer. -/
def observe (r : JobResult) : Observer → List Piece
  | .logging => (loggingPieces r).map (.put .logging)
  | .dashboard => match Json.dump (eventObject r) with
    | .ok text => [.put .dashboard text, .put .dashboard (ascii "\n")]
    | .error _ => [.throws]

/-- The pieces of `ResultCollector::submitResult`. -/
def report (observers : List Observer) (r : JobResult) : List Piece :=
  observers.flatMap (observe r)

/-! ## The threads -/

inductive Thread (n : Nat) where
  | worker (w : Fin n)
  | client (c : Nat)
  /-- The one that stops the pool. -/
  | stopper
  deriving DecidableEq, Repr

structure State (n : Nat) where
  pool : Pool.State n
  /-- `InMemoryJobQueue::mutex_`. -/
  queue : Mutex (Thread n) (Code Queue Outcome)
  /-- What a client is about to enqueue. -/
  clients : Nat → Option Submission
  /-- The jobs the clients made. -/
  offered : List Job
  /-- The critical section of `InMemoryJobQueue::stop` is behind its thread. -/
  stopped : Bool
  /-- `ResultCollector::mutex_`, with the pieces still to be put out. -/
  collector : Mutex (Fin n) (List Piece)
  printed : List (Observer × Bytes)
  /-- The engine process is gone. -/
  terminated : Bool

inductive Action (n : Nat) where
  /-- A client calls `enqueue`. -/
  | call (c : Nat) (sub : Submission)
  | lock (i : Thread n)
  /-- The next step of the section. -/
  | act (i : Thread n)
  /-- Behind the last one: `dequeue` and `stop` give the mutex back. -/
  | leave (i : Thread n)
  /-- Behind the last one: `enqueue` notifies. -/
  | notify (i : Thread n) (wake : Option (Fin n))
  /-- `enqueue` gives the mutex back. -/
  | unlock (i : Thread n)
  /-- `notify_all`, with which `InMemoryJobQueue::stop` returns. -/
  | notifyAll
  | lockCollector (w : Fin n)
  | put (w : Fin n)
  | unlockCollector (w : Fin n)
  /-- A step that needs no mutex. -/
  | own (a : Pool.Action n)

variable {n : Nat}

/-- The data behind the queue's mutex. -/
def data (p : Pool.State n) : Queue := ⟨p.jobs, p.stopping⟩

def setData (p : Pool.State n) (q : Queue) : Pool.State n :=
  { p with jobs := q.jobs, stopping := q.stopping }

@[simp] theorem workers_setData (p : Pool.State n) (q : Queue) :
    (setData p q).workers = p.workers := rfl

@[simp] theorem running_setData (p : Pool.State n) (q : Queue) :
    (setData p q).running = p.running := rfl

@[simp] theorem stopper_setData (p : Pool.State n) (q : Queue) :
    (setData p q).stopper = p.stopper := rfl

@[simp] theorem satisfied_setData (p : Pool.State n) (q : Queue) :
    (setData p q).satisfied = p.satisfied := rfl

@[simp] theorem accepted_setData (p : Pool.State n) (q : Queue) :
    (setData p q).accepted = p.accepted := rfl

theorem setWorker_setData (p : Pool.State n) (q : Queue) (w : Fin n) (v : Worker) :
    setWorker (setData p q) w v = setData (setWorker p w v) q := rfl

/-- The section that a thread is about to go through. -/
def whole (sched : Scheduler) (s : State n) : Thread n → Option (Body Queue Outcome)
  | .worker w => match s.pool.workers w with
    | .dequeuing => some (dequeueBody sched)
    | .requeueing job =>
        some (enqueueBody sched (MLFQScheduler.demote job))
    | _ => none
  | .client c => (s.clients c).map fun sub => enqueueBody sched sub.job
  | .stopper => if s.pool.stopper = .flagged ∧ s.stopped = false then some stopBody else none

/-- What a worker does with what `dequeue` returned. -/
def afterDequeue (p : Pool.State n) (w : Fin n) : Outcome → Option (Pool.State n)
  | .blocks => some (setWorker p w .waiting)
  | .departs => some (setWorker p w .gone)
  | .takes job => some (setWorker p w (.executing job))
  | .undefined => some { p with undefined := true }
  | _ => none

/-- The steps that need no mutex; a thread takes them when it holds none. -/
def needsNoMutex (m : Mutex (Thread n) (Code Queue Outcome)) : Pool.Action n → Bool
  | .testRunning w => (m.inside (.worker w)).isNone
  | .wakeSpuriously _ | .execute _ _ _ _ | .callSubmitResult _ | .setPromise _
  | .endIteration _ | .clearRunning | .joinWorkers => true
  | _ => false

/-- `enqueue` of a thread that has the job in the deque. -/
def notify (s : State n) (wake : Option (Fin n)) : Thread n → Option (State n)
  | .worker w => match s.pool.workers w with
    | .requeueing job =>
        let p := setWorker s.pool w .atLoopHead
        (notifyOne p.workers wake).map fun ws => { s with
          pool := { p with workers := ws, requeued := job.id :: s.pool.requeued } }
    | _ => none
  | .client c => match s.clients c with
    | some sub =>
        (notifyOne s.pool.workers wake).map fun ws => { s with
          pool := { s.pool with workers := ws, accepted := s.pool.accepted ++ [sub.job] }
          clients := Function.update s.clients c none }
    | none => none
  | .stopper => none

/-- A step of an engine that is there. -/
def stepAlive (sched : Scheduler) (observers : List Observer) (s : State n) :
    Action n → Option (State n)
  | .call c sub =>
      if s.clients c = none ∧ (s.queue.inside (.client c)).isNone ∧ sub.isNew s.offered then
        some { s with
          clients := Function.update s.clients c (some sub), offered := s.offered ++ [sub.job] }
      else none
  | .lock i => match whole sched s i with
      | some body => (s.queue.take i (.running body)).map fun m => { s with queue := m }
      | none => none
  | .act i => match s.queue.inside i with
      | some (.running (.act write next)) => some { s with
          pool := setData s.pool (write (data s.pool))
          queue := s.queue.goOn i (.running (next (data s.pool))) }
      | _ => none
  | .leave i => match s.queue.inside i with
      | some (.running (.ret out)) => match i with
        | .worker w => (afterDequeue s.pool w out).map fun p =>
            { s with pool := p, queue := s.queue.give i }
        | .client _ => none
        | .stopper => some { s with stopped := true, queue := s.queue.give i }
      | _ => none
  | .notify i wake => match s.queue.inside i with
      | some (.running (.ret .added)) =>
          (notify s wake i).map fun t => { t with queue := s.queue.goOn i .leaving }
      | _ => none
  | .unlock i => match s.queue.inside i with
      | some .leaving => some { s with queue := s.queue.give i }
      | _ => none
  | .notifyAll =>
      if s.pool.stopper = .flagged ∧ s.stopped = true then
        some { s with pool := { s.pool with
          stopper := .joining, workers := Pool.notifyAll s.pool.workers } }
      else none
  | .lockCollector w => match s.pool.workers w with
      | .submitting job res =>
          (s.collector.take w (report observers (jobResult job res))).map fun m =>
            { s with collector := m }
      | _ => none
  | .put w => match s.collector.inside w with
      | some (.put o bytes :: rest) => some { s with
          printed := s.printed ++ [(o, bytes)], collector := s.collector.goOn w rest }
      | some (.throws :: _) => some { s with terminated := true }
      | _ => none
  | .unlockCollector w => match s.collector.inside w with
      | some [] => (Pool.step sched s.pool (.returnFromSubmitResult w)).map fun p =>
          { s with pool := p, collector := s.collector.give w }
      | _ => none
  | .own a =>
      if needsNoMutex s.queue a then
        (Pool.step sched s.pool a).map fun p => { s with pool := p }
      else none

def step (sched : Scheduler) (observers : List Observer) (s : State n) (a : Action n) :
    Option (State n) :=
  if s.terminated then none else stepAlive sched observers s a

/-- A thread that is at its last access completes a step of `Core.Shutdown`. -/
def shows (s : State n) : Action n → Option (Shutdown.Action n)
  | .leave (.worker w) => some (.pool (.dequeue w))
  | .leave .stopper => some .setStopping
  | .notify (.worker w) wake => some (.pool (.requeue w wake))
  | .notify (.client c) wake => (s.clients c).map fun sub => .pool (.enqueue sub wake)
  | .notifyAll => some .notifyAll
  | .unlockCollector w => some (.pool (.returnFromSubmitResult w))
  | .own a => some (.pool a)
  | _ => none

/-- The transitions of `step`. -/
inductive Moves (sched : Scheduler) (observers : List Observer) (s : State n) :
    Action n → State n → Prop
  | calls (c : Nat) (sub : Submission) (hc : s.clients c = none)
      (hout : s.queue.inside (.client c) = none) (hnew : sub.isNew s.offered = true) :
      Moves sched observers s (.call c sub) { s with
        clients := Function.update s.clients c (some sub), offered := s.offered ++ [sub.job] }
  | locks (i : Thread n) (body : Body Queue Outcome) (m : Mutex (Thread n) (Code Queue Outcome))
      (hbody : whole sched s i = some body) (hm : s.queue.take i (.running body) = some m) :
      Moves sched observers s (.lock i) { s with queue := m }
  | acts (i : Thread n) (write : Queue → Queue) (next : Queue → Body Queue Outcome)
      (hi : s.queue.inside i = some (.running (.act write next))) :
      Moves sched observers s (.act i) { s with
        pool := setData s.pool (write (data s.pool))
        queue := s.queue.goOn i (.running (next (data s.pool))) }
  | leaves (w : Fin n) (out : Outcome) (p : Pool.State n)
      (hi : s.queue.inside (.worker w) = some (.running (.ret out)))
      (hp : afterDequeue s.pool w out = some p) :
      Moves sched observers s (.leave (.worker w))
        { s with pool := p, queue := s.queue.give (.worker w) }
  | stops (out : Outcome) (hi : s.queue.inside .stopper = some (.running (.ret out))) :
      Moves sched observers s (.leave .stopper)
        { s with stopped := true, queue := s.queue.give .stopper }
  | requeues (w : Fin n) (wake : Option (Fin n)) (job : Job) (ws : Fin n → Worker)
      (hi : s.queue.inside (.worker w) = some (.running (.ret .added)))
      (hw : s.pool.workers w = .requeueing job)
      (hwake : notifyOne (setWorker s.pool w .atLoopHead).workers wake = some ws) :
      Moves sched observers s (.notify (.worker w) wake) { s with
        pool := { s.pool with workers := ws, requeued := job.id :: s.pool.requeued }
        queue := s.queue.goOn (.worker w) .leaving }
  | enqueues (c : Nat) (wake : Option (Fin n)) (sub : Submission) (ws : Fin n → Worker)
      (hi : s.queue.inside (.client c) = some (.running (.ret .added)))
      (hc : s.clients c = some sub) (hwake : notifyOne s.pool.workers wake = some ws) :
      Moves sched observers s (.notify (.client c) wake) { s with
        pool := { s.pool with workers := ws, accepted := s.pool.accepted ++ [sub.job] }
        clients := Function.update s.clients c none
        queue := s.queue.goOn (.client c) .leaving }
  | unlocks (i : Thread n) (hi : s.queue.inside i = some .leaving) :
      Moves sched observers s (.unlock i) { s with queue := s.queue.give i }
  | notifies (hs : s.pool.stopper = .flagged) (hq : s.stopped = true) :
      Moves sched observers s .notifyAll { s with pool := { s.pool with
        stopper := .joining, workers := Pool.notifyAll s.pool.workers } }
  | locksCollector (w : Fin n) (job : Job) (res : ExecutionResult)
      (m : Mutex (Fin n) (List Piece)) (hw : s.pool.workers w = .submitting job res)
      (hm : s.collector.take w (report observers (jobResult job res)) = some m) :
      Moves sched observers s (.lockCollector w) { s with collector := m }
  | puts (w : Fin n) (o : Observer) (bytes : Bytes) (rest : List Piece)
      (hw : s.collector.inside w = some (.put o bytes :: rest)) :
      Moves sched observers s (.put w) { s with
        printed := s.printed ++ [(o, bytes)], collector := s.collector.goOn w rest }
  | throws (w : Fin n) (rest : List Piece) (hw : s.collector.inside w = some (.throws :: rest)) :
      Moves sched observers s (.put w) { s with terminated := true }
  | unlocksCollector (w : Fin n) (p : Pool.State n) (hw : s.collector.inside w = some [])
      (hp : Pool.Moves sched s.pool (.returnFromSubmitResult w) p) :
      Moves sched observers s (.unlockCollector w)
        { s with pool := p, collector := s.collector.give w }
  | owns (a : Pool.Action n) (p : Pool.State n) (ha : needsNoMutex s.queue a = true)
      (hp : Pool.Moves sched s.pool a p) : Moves sched observers s (.own a) { s with pool := p }

theorem moves_of_notify {sched : Scheduler} {observers : List Observer} {s t : State n}
    {wake : Option (Fin n)} {i : Thread n}
    (hi : s.queue.inside i = some (.running (.ret .added))) (h : notify s wake i = some t) :
    Moves sched observers s (.notify i wake) { t with queue := s.queue.goOn i .leaving } := by
  cases i with
  | worker w =>
      rw [notify] at h
      split at h
      · rename_i job hw
        rcases Option.map_eq_some_iff.mp h with ⟨ws, hws, rfl⟩
        exact .requeues w wake job ws hi hw hws
      · simp only [reduceCtorEq] at h
  | client c =>
      rw [notify] at h
      split at h
      · rename_i sub hc
        rcases Option.map_eq_some_iff.mp h with ⟨ws, hws, rfl⟩
        exact .enqueues c wake sub ws hi hc hws
      · simp only [reduceCtorEq] at h
  | stopper => simp only [notify, reduceCtorEq] at h

theorem moves_of_leave {sched : Scheduler} {observers : List Observer} {s t : State n}
    {i : Thread n} (h : stepAlive sched observers s (.leave i) = some t) :
    Moves sched observers s (.leave i) t := by
  rw [stepAlive] at h
  split at h
  · rename_i out hi
    cases i with
    | worker w =>
        rcases Option.map_eq_some_iff.mp h with ⟨p, hp, rfl⟩
        exact .leaves w out p hi hp
    | client c => simp only [reduceCtorEq] at h
    | stopper => exact Option.some.inj h ▸ .stops out hi
  · simp only [reduceCtorEq] at h

theorem moves_of_stepAlive {sched : Scheduler} {observers : List Observer} {s t : State n}
    {a : Action n} (h : stepAlive sched observers s a = some t) : Moves sched observers s a t := by
  cases a with
  | call c sub =>
      simp only [stepAlive, Option.ite_none_right_eq_some, Option.some.injEq] at h
      rcases h with ⟨⟨hc, hout, hnew⟩, rfl⟩
      exact .calls c sub hc (Option.isNone_iff_eq_none.mp hout) hnew
  | lock i =>
      rw [stepAlive] at h
      split at h
      · rename_i body hbody
        rcases Option.map_eq_some_iff.mp h with ⟨m, hm, rfl⟩
        exact .locks i body m hbody hm
      · simp only [reduceCtorEq] at h
  | act i =>
      rw [stepAlive] at h
      split at h
      · rename_i write next hi
        exact Option.some.inj h ▸ .acts i write next hi
      · simp only [reduceCtorEq] at h
  | leave i => exact moves_of_leave h
  | notify i wake =>
      rw [stepAlive] at h
      split at h
      · rename_i hi
        rcases Option.map_eq_some_iff.mp h with ⟨t, ht, rfl⟩
        exact moves_of_notify hi ht
      · simp only [reduceCtorEq] at h
  | unlock i =>
      rw [stepAlive] at h
      split at h
      · rename_i hi
        exact Option.some.inj h ▸ .unlocks i hi
      · simp only [reduceCtorEq] at h
  | notifyAll =>
      simp only [stepAlive, Option.ite_none_right_eq_some, Option.some.injEq] at h
      exact h.2 ▸ .notifies h.1.1 h.1.2
  | lockCollector w =>
      rw [stepAlive] at h
      split at h
      · rename_i job res hw
        rcases Option.map_eq_some_iff.mp h with ⟨m, hm, rfl⟩
        exact .locksCollector w job res m hw hm
      · simp only [reduceCtorEq] at h
  | put w =>
      rw [stepAlive] at h
      split at h
      · rename_i o bytes rest hw
        exact Option.some.inj h ▸ .puts w o bytes rest hw
      · rename_i rest hw
        exact Option.some.inj h ▸ .throws w rest hw
      · simp only [reduceCtorEq] at h
  | unlockCollector w =>
      rw [stepAlive] at h
      split at h
      · rename_i hw
        rcases Option.map_eq_some_iff.mp h with ⟨p, hp, rfl⟩
        exact .unlocksCollector w p hw (Pool.moves_of_step hp)
      · simp only [reduceCtorEq] at h
  | own a =>
      simp only [stepAlive, Option.ite_none_right_eq_some] at h
      rcases Option.map_eq_some_iff.mp h.2 with ⟨p, hp, rfl⟩
      exact .owns a p h.1 (Pool.moves_of_step hp)

theorem moves_of_step {sched : Scheduler} {observers : List Observer} {s t : State n}
    {a : Action n} (h : step sched observers s a = some t) : Moves sched observers s a t := by
  rw [step] at h
  split at h
  · simp only [reduceCtorEq] at h
  · exact moves_of_stepAlive h

/-- Nobody is in a section, and nothing was enqueued yet. -/
def init (n : Nat) : State n where
  pool := Pool.init n
  queue := Mutex.free
  clients := fun _ => none
  offered := []
  stopped := false
  collector := Mutex.free
  printed := []
  terminated := false

end Locks

end Isolyx
