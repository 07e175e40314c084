import Isolyx.Core.Pool
import Isolyx.Core.SubmitHandler

/-!
# The Portal

The API server and the engine as one system, from a request to its answer. The
submit handler writes a job's line into the command pipe; the daemon thread
takes the lines out, makes a command of each and enqueues its job; the pool
runs it; the dashboard observer turns the result into the text of an event; and
the reader finds the request that the event answers.

The server and the pool are the models of their own. What connects them is the
text of a line and the text of an event, here the bytes that one side writes and
the other one parses. A line of either pipe arrives whole, or is lost. The
command pipe loses it if both ends are closed before it is read, and an event
that finds no reader is not written.

The engine may end at any moment, and then neither reads a line nor runs a job.
It ends when an event has no text, since nobody catches what `dump` throws. A
line can only be written as long as somebody reads the pipe.

Other jobs come from the shell and from other writers of the command pipe at any
time, and may be any commands. One whose executable has a job id in its name may
be taken for the job of a request (`namesNoId`).

The state carries a history: the requests whose lines were lost, and the results
that the observer was shown, with whether their events were written. No step
reads it.

## Main definitions

* `namesNoId`: An executable without a job id in its name.
* `requestOf`: The request whose executable it is.
* `State`: The two programs, and what is between them.
* `step`: The transition function.
* `Moves`: Its transitions, one by one.
-/

namespace Isolyx

namespace Portal

open ApiServer (IsJobId Line Turn binPath)
open CommandLine (parseJob)
open SubmitHandler (payload)

/-- No part of the executable's name is a job id. -/
def namesNoId (executable : Bytes) : Bool :=
  match Utf8.decode executable with
  | none => true
  | some path => path.tails.all fun rest => !decide (IsJobId (rest.take 36))

/-- The request whose executable it is. -/
def requestOf (executable : Bytes) : Option (List Char) :=
  (Utf8.decode executable).bind fun path =>
    let jobId := (path.drop 9).take 36
    if IsJobId jobId ∧ path = binPath jobId then some jobId else none

/-- The line of a job in the command pipe. -/
def jobText (jobId : List Char) : Bytes := Utf8.encode (payload jobId)

structure State (n : Nat) where
  server : ApiServer.State
  /-- The lines in the command pipe, oldest first. -/
  commands : List Bytes
  pool : Pool.State n
  nextJobId : Nat
  /-- The engine process has not ended. -/
  alive : Bool
  lost : List (List Char)
  results : List (JobResult × Bool)

/-- A turn of the server's event loop, or a part of one, that touches no pipe. -/
def isTurn : ApiServer.Action → Bool
  | .call _ | .refuse | .closeFails | .register | .receive _ => true
  | .write | .finish _ _ | .foreign _ => false

/-- A step of the pool that concerns nobody else. -/
def isInternal {n : Nat} : Pool.Action n → Bool
  | .enqueue _ _ | .callSubmitResult _ => false
  | _ => true

inductive Action (n : Nat) where
  | server (a : ApiServer.Action)
  /-- The submit handler writes its line; `delivered` if it is not lost. -/
  | write (delivered : Bool)
  /-- The daemon thread takes a line. -/
  | daemonLine (wake : Option (Fin n))
  /-- A job that is no request's. -/
  | submit (cmd : Command) (wake : Option (Fin n))
  | pool (a : Pool.Action n)
  /-- The observer is called; `delivered` if the event pipe has a reader. -/
  | submitResult (w : Fin n) (delivered : Bool)
  /-- The engine process ends. -/
  | dies

variable {n : Nat}

/-- `Job job{next_job_id++, cmd, promise}`. -/
def submission (s : State n) (cmd : Command) : Pool.Submission where
  id := s.nextJobId
  cmd := cmd
  resultPromise := some s.nextJobId

/-- `job_queue.enqueue` of such a job. -/
def enqueue (sched : Scheduler) (s : State n) (cmd : Command) (wake : Option (Fin n)) :
    Option (State n) :=
  (Pool.step sched s.pool (.enqueue (submission s cmd) wake)).map fun p =>
    { s with pool := p, nextJobId := s.nextJobId + 1 }

/-- The line of an event on its way to the reader. -/
def eventLine (r : JobResult) (text : Bytes) : Line where
  text := (Utf8.decode text).getD []
  job := requestOf r.commandLine

/-- The server while an event is on its way to it. -/
def post (server : ApiServer.State) (line : Line) : ApiServer.State :=
  { server with lines := server.lines ++ [line] }

def step (sched : Scheduler) (s : State n) : Action n → Option (State n)
  | .server a =>
      if isTurn a then (ApiServer.step s.server a).map fun v => { s with server := v } else none
  | .write delivered => match s.server.turn with
      -- `openSync` does not return as long as nobody reads the pipe
      | .submitting jobId => if s.alive then some { s with
          server := { s.server with
            turn := .written jobId
            submitted := jobId :: s.server.submitted }
          commands := if delivered then s.commands ++ [jobText jobId] else s.commands
          lost := if delivered then s.lost else jobId :: s.lost } else none
      | _ => none
  | .daemonLine wake => match s.commands with
      | [] => none
      | line :: rest => if s.alive then match parseJob line with
          | none => some { s with commands := rest }
          | some cmd => enqueue sched { s with commands := rest } cmd wake
        else none
  | .submit cmd wake => if s.alive then enqueue sched s cmd wake else none
  | .pool a =>
      if s.alive ∧ isInternal a then
        (Pool.step sched s.pool a).map fun p => { s with pool := p }
      else none
  | .submitResult w delivered => match s.pool.workers w with
      | .finished job res => if s.alive then
          match Json.dump (eventObject (jobResult job res)) with
          -- the exception leaves the thread
          | .error _ => some { s with alive := false }
          | .ok text => (Pool.step sched s.pool (.callSubmitResult w)).map fun p => { s with
              pool := p
              server := if delivered then post s.server (eventLine (jobResult job res) text)
                else s.server
              results := (jobResult job res, delivered) :: s.results }
        else none
      | _ => none
  | .dies => some { s with alive := false }

/-- The transitions of `step`, one constructor for each outcome of an action. -/
inductive Moves (sched : Scheduler) (s : State n) : Action n → State n → Prop
  | turns (a : ApiServer.Action) (v : ApiServer.State) (ha : isTurn a = true)
      (hv : ApiServer.Moves s.server a v) : Moves sched s (.server a) { s with server := v }
  | writes (delivered : Bool) (jobId : List Char) (ht : s.server.turn = .submitting jobId) :
      Moves sched s (.write delivered) { s with
        server := { s.server with
          turn := .written jobId
          submitted := jobId :: s.server.submitted }
        commands := if delivered then s.commands ++ [jobText jobId] else s.commands
        lost := if delivered then s.lost else jobId :: s.lost }
  | drops (line : Bytes) (rest : List Bytes) (wake : Option (Fin n))
      (hc : s.commands = line :: rest) (hp : parseJob line = none) :
      Moves sched s (.daemonLine wake) { s with commands := rest }
  | takes (line : Bytes) (rest : List Bytes) (cmd : Command) (wake : Option (Fin n))
      (p : Pool.State n) (hc : s.commands = line :: rest) (hp : parseJob line = some cmd)
      (hpool : Pool.Moves sched s.pool (.enqueue (submission s cmd) wake) p) :
      Moves sched s (.daemonLine wake)
        { s with commands := rest, pool := p, nextJobId := s.nextJobId + 1 }
  | submits (cmd : Command) (wake : Option (Fin n)) (p : Pool.State n)
      (hpool : Pool.Moves sched s.pool (.enqueue (submission s cmd) wake) p) :
      Moves sched s (.submit cmd wake) { s with pool := p, nextJobId := s.nextJobId + 1 }
  | pools (a : Pool.Action n) (p : Pool.State n) (ha : isInternal a = true)
      (hpool : Pool.Moves sched s.pool a p) : Moves sched s (.pool a) { s with pool := p }
  | throws (w : Fin n) (delivered : Bool) :
      Moves sched s (.submitResult w delivered) { s with alive := false }
  | shows (w : Fin n) (delivered : Bool) (job : Job) (res : ExecutionResult) (text : Bytes)
      (p : Pool.State n) (hw : s.pool.workers w = .finished job res)
      (htext : Json.dump (eventObject (jobResult job res)) = .ok text)
      (hpool : Pool.Moves sched s.pool (.callSubmitResult w) p) :
      Moves sched s (.submitResult w delivered) { s with
        pool := p
        server := if delivered then post s.server (eventLine (jobResult job res) text)
          else s.server
        results := (jobResult job res, delivered) :: s.results }
  | dies : Moves sched s .dies { s with alive := false }

theorem moves_of_enqueue {sched : Scheduler} {s t : State n} {cmd : Command}
    {wake : Option (Fin n)} (h : enqueue sched s cmd wake = some t) :
    ∃ p, Pool.Moves sched s.pool (.enqueue (submission s cmd) wake) p ∧
      t = { s with pool := p, nextJobId := s.nextJobId + 1 } := by
  rcases Option.map_eq_some_iff.mp h with ⟨p, hp, ht⟩
  exact ⟨p, Pool.moves_of_step hp, ht.symm⟩

theorem moves_of_step {sched : Scheduler} {s t : State n} {a : Action n}
    (h : step sched s a = some t) : Moves sched s a t := by
  cases a with
  | server a =>
      simp only [step, Option.ite_none_right_eq_some, Option.map_eq_some_iff] at h
      rcases h with ⟨ha, v, hv, rfl⟩
      exact .turns a v ha (ApiServer.moves_of_step hv)
  | write delivered =>
      cases ht : s.server.turn <;> simp only [step, ht, reduceCtorEq] at h
      simp only [Option.ite_none_right_eq_some, Option.some.injEq] at h
      exact h.2 ▸ .writes delivered _ ht
  | daemonLine wake =>
      cases hc : s.commands with
      | nil => simp only [step, hc, reduceCtorEq] at h
      | cons line rest =>
          simp only [step, hc, Option.ite_none_right_eq_some] at h
          rcases h with ⟨_, h⟩
          cases hp : parseJob line with
          | none =>
              simp only [hp, Option.some.injEq] at h
              exact h ▸ .drops line rest wake hc hp
          | some cmd =>
              simp only [hp] at h
              rcases moves_of_enqueue h with ⟨p, hpool, rfl⟩
              exact .takes line rest cmd wake p hc hp hpool
  | submit cmd wake =>
      simp only [step, Option.ite_none_right_eq_some] at h
      rcases moves_of_enqueue h.2 with ⟨p, hpool, rfl⟩
      exact .submits cmd wake p hpool
  | pool a =>
      simp only [step, Option.ite_none_right_eq_some, Option.map_eq_some_iff] at h
      rcases h with ⟨ha, p, hp, rfl⟩
      exact .pools a p ha.2 (Pool.moves_of_step hp)
  | submitResult w delivered =>
      cases hw : s.pool.workers w <;> simp only [step, hw, reduceCtorEq] at h
      rename_i job res
      rw [Option.ite_none_right_eq_some] at h
      rcases h with ⟨_, h⟩
      cases htext : Json.dump (eventObject (jobResult job res)) with
      | error e =>
          simp only [htext, Option.some.injEq] at h
          exact h ▸ .throws w delivered
      | ok text =>
          simp only [htext, Option.map_eq_some_iff] at h
          rcases h with ⟨p, hp, rfl⟩
          exact .shows w delivered job res text p hw htext (Pool.moves_of_step hp)
  | dies =>
      simp only [step, Option.some.injEq] at h
      exact h ▸ .dies

/-- Both programs have started, and no request is pending. -/
def init (n : Nat) : State n where
  server := ApiServer.init []
  commands := []
  pool := Pool.init n
  nextJobId := 1
  alive := true
  lost := []
  results := []

end Portal

end Isolyx
