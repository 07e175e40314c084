import Isolyx.Core.JobLine
import Isolyx.Library.Fifo
import Isolyx.Library.Run
import Mathlib.Logic.Function.Basic

/-!
# The Command Pipe

The daemon thread at one end of `/tmp/isolyx_cmds` and any number of
submitters at the other.

The daemon opens the FIFO, takes lines out of it until end of file, closes it
by leaving the scope of the stream, and starts over. A stream reads ahead, so
bytes that were read and not yet taken as a line are in its buffer, here in
the daemon's hand. Every line becomes a command that is enqueued, unless it is
empty or building the command throws.

A submitter opens the FIFO, writes one line and its newline in one piece, and
closes. Opening either end blocks until the other end is open or being opened.
A write that finds no reader fails, and the line is not written; the
submitter's descriptor may stay open after that, as the API server's does.

The state carries a history of the lines whose write succeeded.

## Main definitions

* `Daemon`: Where the daemon is in its loop.
* `Submitter`: Where a submitter is.
* `Action`: One step of one party.
* `step`: The transition function.
* `Moves`: Its transitions, one by one.
-/

namespace Isolyx

namespace Intake

open CommandLine (JobLine parseJob newline)

/-- Where the daemon is in its loop. -/
inductive Daemon where
  /-- About to construct the stream. -/
  | closed
  /-- In `open`; `met` once a submitter has opened the FIFO. -/
  | opening (met : Bool)
  /-- In `getline`, with what was read ahead. -/
  | reading (hand : Bytes)
  /-- End of file was read; the stream is about to be destroyed. -/
  | ended
  deriving DecidableEq, Repr

/-- Where a submitter is. -/
inductive Submitter where
  | before
  /-- In `open`; `met` once the daemon has opened the FIFO. -/
  | opening (met : Bool)
  | opened
  | wrote
  /-- The write failed, as there was no reader. -/
  | failed
  | done
  deriving DecidableEq, Repr

structure State (n : Nat) where
  fifo : Fifo UInt8
  daemon : Daemon
  submitters : Fin n → Submitter
  /-- The commands of the jobs enqueued. -/
  enqueued : List Command
  /-- How many lines were reported as not being a job. -/
  failures : Nat
  written : List JobLine

inductive Action (n : Nat) where
  | openPipe (i : Fin n)
  | pipeOpened (i : Fin n)
  | writeLine (i : Fin n)
  | closePipe (i : Fin n)
  | daemonOpens
  | daemonOpened
  /-- The stream reads ahead, getting `k` bytes. -/
  | readAhead (k : Nat)
  | getLine
  /-- The stream reads end of file. -/
  | readEof
  | daemonCloses
  deriving DecidableEq, Repr

variable {n : Nat}

def Daemon.meet : Daemon → Daemon
  | .opening _ => .opening true
  | d => d

def Submitter.meet : Submitter → Submitter
  | .opening _ => .opening true
  | p => p

def setSubmitter (s : State n) (i : Fin n) (p : Submitter) : State n :=
  { s with submitters := Function.update s.submitters i p }

/-- The body of the daemon's loop over lines. -/
def processLine (s : State n) (text : Bytes) : State n :=
  if text.isEmpty then s
  else match parseJob text with
    | some cmd => { s with enqueued := s.enqueued ++ [cmd] }
    | none => { s with failures := s.failures + 1 }

def step (lines : Fin n → JobLine) (s : State n) : Action n → Option (State n)
  | .openPipe i => match s.submitters i with
      | .before => some { setSubmitter s i (.opening (s.fifo.readers != 0)) with
          fifo := s.fifo.openWrite
          daemon := s.daemon.meet }
      | _ => none
  | .pipeOpened i => match s.submitters i with
      | .opening true => some (setSubmitter s i .opened)
      | _ => none
  | .writeLine i => match s.submitters i with
      | .opened =>
          -- without a reader the write fails with `EPIPE`, and the descriptor stays open
          if s.fifo.readers = 0 then some (setSubmitter s i .failed)
          else some { setSubmitter s i .wrote with
            fifo := s.fifo.write (lines i).bytes
            written := s.written ++ [lines i] }
      | _ => none
  | .closePipe i => match s.submitters i with
      | .wrote | .failed => some { setSubmitter s i .done with fifo := s.fifo.closeWrite }
      | _ => none
  | .daemonOpens => match s.daemon with
      | .closed => some { s with
          fifo := s.fifo.openRead
          daemon := .opening (s.fifo.writers != 0)
          submitters := fun i => (s.submitters i).meet }
      | _ => none
  | .daemonOpened => match s.daemon with
      | .opening true => some { s with daemon := .reading [] }
      | _ => none
  | .readAhead k => match s.daemon with
      | .reading hand =>
          -- the stream reads on only when no whole line is left in its buffer
          if newline ∉ hand ∧ 0 < k ∧ k ≤ s.fifo.buffer.length then
            some { s with
              fifo := s.fifo.read k
              daemon := .reading (hand ++ s.fifo.buffer.take k) }
          else none
      | _ => none
  | .getLine => match s.daemon with
      | .reading hand =>
          if newline ∈ hand then
            let text := hand.takeWhile (· != newline)
            some (processLine { s with daemon := .reading (hand.drop (text.length + 1)) } text)
          else none
      | _ => none
  | .readEof => match s.daemon with
      | .reading hand =>
          -- what is left in the hand is a last line without a newline
          if newline ∉ hand ∧ s.fifo.atEof then some (processLine { s with daemon := .ended } hand)
          else none
      | _ => none
  | .daemonCloses => match s.daemon with
      | .ended => some { s with fifo := s.fifo.closeRead, daemon := .closed }
      | _ => none

/-- The transitions of `step`, one constructor for each outcome of an action. -/
inductive Moves (lines : Fin n → JobLine) (s : State n) : Action n → State n → Prop
  | openPipe (i : Fin n) (hi : s.submitters i = .before) :
      Moves lines s (.openPipe i) { setSubmitter s i (.opening (s.fifo.readers != 0)) with
        fifo := s.fifo.openWrite
        daemon := s.daemon.meet }
  | pipeOpened (i : Fin n) (hi : s.submitters i = .opening true) :
      Moves lines s (.pipeOpened i) (setSubmitter s i .opened)
  | writeFails (i : Fin n) (hi : s.submitters i = .opened) (hr : s.fifo.readers = 0) :
      Moves lines s (.writeLine i) (setSubmitter s i .failed)
  | writes (i : Fin n) (hi : s.submitters i = .opened) (hr : s.fifo.readers ≠ 0) :
      Moves lines s (.writeLine i) { setSubmitter s i .wrote with
        fifo := s.fifo.write (lines i).bytes
        written := s.written ++ [lines i] }
  | closePipe (i : Fin n) (hi : s.submitters i = .wrote ∨ s.submitters i = .failed) :
      Moves lines s (.closePipe i) { setSubmitter s i .done with fifo := s.fifo.closeWrite }
  | daemonOpens (hd : s.daemon = .closed) :
      Moves lines s .daemonOpens { s with
        fifo := s.fifo.openRead
        daemon := .opening (s.fifo.writers != 0)
        submitters := fun i => (s.submitters i).meet }
  | daemonOpened (hd : s.daemon = .opening true) :
      Moves lines s .daemonOpened { s with daemon := .reading [] }
  | readsAhead (k : Nat) (hand : Bytes) (hd : s.daemon = .reading hand)
      (hk : newline ∉ hand ∧ 0 < k ∧ k ≤ s.fifo.buffer.length) :
      Moves lines s (.readAhead k) { s with
        fifo := s.fifo.read k
        daemon := .reading (hand ++ s.fifo.buffer.take k) }
  | getsLine (hand : Bytes) (hd : s.daemon = .reading hand) (hline : newline ∈ hand) :
      Moves lines s .getLine (processLine
        { s with daemon := .reading (hand.drop ((hand.takeWhile (· != newline)).length + 1)) }
        (hand.takeWhile (· != newline)))
  | readsEof (hand : Bytes) (hd : s.daemon = .reading hand)
      (heof : newline ∉ hand ∧ s.fifo.atEof = true) :
      Moves lines s .readEof (processLine { s with daemon := .ended } hand)
  | daemonCloses (hd : s.daemon = .ended) :
      Moves lines s .daemonCloses { s with fifo := s.fifo.closeRead, daemon := .closed }

theorem moves_of_step {lines : Fin n → JobLine} {s t : State n} {a : Action n}
    (h : step lines s a = some t) : Moves lines s a t := by
  cases a with
  | openPipe i =>
      cases hi : s.submitters i <;> simp only [step, hi, reduceCtorEq, Option.some.injEq] at h
      exact h ▸ .openPipe i hi
  | pipeOpened i =>
      cases hi : s.submitters i with
      | opening met =>
          cases met <;> simp only [step, hi, reduceCtorEq, Option.some.injEq] at h
          exact h ▸ .pipeOpened i hi
      | _ => simp only [step, hi, reduceCtorEq] at h
  | writeLine i =>
      cases hi : s.submitters i <;> simp only [step, hi, reduceCtorEq] at h
      by_cases hr : s.fifo.readers = 0
      · rw [if_pos hr, Option.some.injEq] at h
        exact h ▸ .writeFails i hi hr
      · rw [if_neg hr, Option.some.injEq] at h
        exact h ▸ .writes i hi hr
  | closePipe i =>
      cases hi : s.submitters i <;> simp only [step, hi, reduceCtorEq, Option.some.injEq] at h
      · exact h ▸ .closePipe i (Or.inl hi)
      · exact h ▸ .closePipe i (Or.inr hi)
  | daemonOpens =>
      cases hd : s.daemon <;> simp only [step, hd, reduceCtorEq, Option.some.injEq] at h
      exact h ▸ .daemonOpens hd
  | daemonOpened =>
      cases hd : s.daemon with
      | opening met =>
          cases met <;> simp only [step, hd, reduceCtorEq, Option.some.injEq] at h
          exact h ▸ .daemonOpened hd
      | _ => simp only [step, hd, reduceCtorEq] at h
  | readAhead k =>
      cases hd : s.daemon <;> simp only [step, hd, reduceCtorEq] at h
      rw [Option.ite_none_right_eq_some, Option.some.injEq] at h
      exact h.2 ▸ .readsAhead k _ hd h.1
  | getLine =>
      cases hd : s.daemon <;> simp only [step, hd, reduceCtorEq] at h
      rw [Option.ite_none_right_eq_some, Option.some.injEq] at h
      exact h.2 ▸ .getsLine _ hd h.1
  | readEof =>
      cases hd : s.daemon <;> simp only [step, hd, reduceCtorEq] at h
      rw [Option.ite_none_right_eq_some, Option.some.injEq] at h
      exact h.2 ▸ .readsEof _ hd h.1
  | daemonCloses =>
      cases hd : s.daemon <;> simp only [step, hd, reduceCtorEq, Option.some.injEq] at h
      exact h ▸ .daemonCloses hd

/-- Nobody has opened the FIFO. -/
def init (n : Nat) : State n where
  fifo := Fifo.empty
  daemon := .closed
  submitters := fun _ => .before
  enqueued := []
  failures := 0
  written := []

end Intake

end Isolyx
