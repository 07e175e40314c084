import Isolyx.Core.Portal

/-!
# The Browsers

The pages that follow the results, any number of them, next to the server and
the engine. The server emits every event it reads to whoever is connected. A
page puts the events it gets in front of its list of jobs and keeps the first
fifty.

A connection delivers events in the order in which they were emitted. When it
ends, the events still under way on it are lost, and a page that connects again
gets what is emitted from then on; its list stays as it was. A page registers
its listeners before it connects.

A page carries a history of the events it got, and of how many there were, here
and at the server, when its last connection began. No step reads it.

## Main definitions

* `Client`: A page and its connection.
* `State`: The portal and the pages.
* `broadcast`: `io.emit`.
* `step`: The transition function.
-/

namespace Isolyx

namespace Browser

open JsonText (Value)

structure Client where
  jobs : List Value
  /-- The events under way, if the page is connected. -/
  connection : Option (List Value)
  received : List Value
  before : Nat
  since : Nat

structure State (n : Nat) where
  portal : Portal.State n
  clients : Nat → Client

inductive Action (n : Nat) where
  /-- A step of the server or of the engine. -/
  | portal (a : Portal.Action n)
  | connect (c : Nat)
  | disconnect (c : Nat)
  /-- The next event reaches the page. -/
  | jobResult (c : Nat)

variable {n : Nat}

/-- The events the server has emitted. -/
def emitted (s : State n) : List Value := s.portal.server.reader.emitted

/-- `io.emit`, for each of the events. -/
def broadcast (clients : Nat → Client) (events : List Value) : Nat → Client :=
  fun c => { clients c with connection := (clients c).connection.map (· ++ events) }

def setClient (s : State n) (c : Nat) (client : Client) : State n :=
  { s with clients := Function.update s.clients c client }

/-- `setJobs((prevJobs) => [event, ...prevJobs].slice(0, 50))`. -/
def addJob (event : Value) (prevJobs : List Value) : List Value := (event :: prevJobs).take 50

def step (sched : Scheduler) (s : State n) : Action n → Option (State n)
  | .portal a => (Portal.step sched s.portal a).map fun p => {
      portal := p
      clients := broadcast s.clients (p.server.reader.emitted.drop (emitted s).length) }
  | .connect c => match (s.clients c).connection with
      | none => some (setClient s c { s.clients c with
          connection := some []
          before := (s.clients c).received.length
          since := (emitted s).length })
      | some _ => none
  | .disconnect c => match (s.clients c).connection with
      | none => none
      | some _ => some (setClient s c { s.clients c with connection := none })
  | .jobResult c => match (s.clients c).connection with
      | some (event :: rest) => some (setClient s c { s.clients c with
          jobs := addJob event (s.clients c).jobs
          connection := some rest
          received := (s.clients c).received ++ [event] })
      | _ => none

/-- The transitions of `step`. -/
inductive Moves (sched : Scheduler) (s : State n) : Action n → State n → Prop
  | proceeds (a : Portal.Action n) (p : Portal.State n) (h : Portal.Moves sched s.portal a p) :
      Moves sched s (.portal a) {
        portal := p
        clients := broadcast s.clients (p.server.reader.emitted.drop (emitted s).length) }
  | connects (c : Nat) (hc : (s.clients c).connection = none) :
      Moves sched s (.connect c) (setClient s c { s.clients c with
        connection := some []
        before := (s.clients c).received.length
        since := (emitted s).length })
  | disconnects (c : Nat) :
      Moves sched s (.disconnect c) (setClient s c { s.clients c with connection := none })
  | gets (c : Nat) (event : Value) (rest : List Value)
      (hc : (s.clients c).connection = some (event :: rest)) :
      Moves sched s (.jobResult c) (setClient s c { s.clients c with
        jobs := addJob event (s.clients c).jobs
        connection := some rest
        received := (s.clients c).received ++ [event] })

theorem moves_of_step {sched : Scheduler} {s t : State n} {a : Action n}
    (h : step sched s a = some t) : Moves sched s a t := by
  cases a with
  | portal a =>
      rcases Option.map_eq_some_iff.mp h with ⟨p, hp, rfl⟩
      exact .proceeds a p (Portal.moves_of_step hp)
  | connect c =>
      cases hc : (s.clients c).connection <;>
        simp only [step, hc, reduceCtorEq, Option.some.injEq] at h
      exact h ▸ .connects c hc
  | disconnect c =>
      cases hc : (s.clients c).connection <;>
        simp only [step, hc, reduceCtorEq, Option.some.injEq] at h
      exact h ▸ .disconnects c
  | jobResult c =>
      cases hc : (s.clients c).connection with
      | none => simp only [step, hc, reduceCtorEq] at h
      | some queue =>
          cases queue <;> simp only [step, hc, reduceCtorEq, Option.some.injEq] at h
          exact h ▸ .gets c _ _ hc

/-- A page that was just opened. -/
def Client.fresh : Client where
  jobs := []
  connection := none
  received := []
  before := 0
  since := 0

/-- The portal has started, and no page is connected. -/
def init (n : Nat) : State n where
  portal := Portal.init n
  clients := fun _ => Client.fresh

end Browser

end Isolyx
