import Isolyx.Core.Event
import Isolyx.Core.Command
import Isolyx.Library.Fifo
import Isolyx.Library.Run

/-!
# The Event Pipe

`DashboardObserver::writeToPipe` at one end of `/tmp/isolyx_events` and
`readFromPipe` at the other.

The engine opens the FIFO for every event, without blocking, writes the text,
writes a newline and closes it again. Its mutex makes one call follow the
other, and neither write's result is looked at. Opening fails when nobody has
the FIFO open for reading or is opening it. A write that finds no reader
raises `SIGPIPE`, and the process dies of it, as nothing in `main` changes what
that signal does. How much of any other write is taken is up to the system
within the bounds of `Fifo.MayAccept`.

The server opens the FIFO for reading, which blocks until there is a writer,
reads until end of file, closes, and opens it again later. It may also crash
at any moment and be started again.

The events are those whose text `dump` returned. The state carries a history
next to what the two processes hold: the events passed to `onResult` since the
server first opened the FIFO, the bytes it received, and what every call of
`onResult` contributed to the bytes that reached the FIFO.

## Main definitions

* `Writer`: Where the engine is in `writeToPipe`.
* `Reader`: Where the server is in `readFromPipe`.
* `Action`: One step of either side.
* `step`: The transition function.
* `Moves`: Its transitions, one by one.
* `init`: Neither side has opened the FIFO.
* `listening`: The server has the FIFO open and reads.
-/

namespace Isolyx

namespace EventPipe

/-- The byte that ends a line. -/
def newline : UInt8 := 0x0A

/-- The text `onResult` hands to `writeToPipe`. -/
def data (e : Event) : Bytes := Utf8.encode e.text

/-- The line an event is meant to become. -/
def line (e : Event) : Bytes := data e ++ [newline]

/-- Where the engine is in `writeToPipe`, with what its writes returned. -/
inductive Writer where
  | idle
  /-- `open` succeeded; the text is about to be written. -/
  | opened (e : Event)
  /-- `accepted` bytes of the text were taken; the newline is next. -/
  | wroteData (e : Event) (accepted : Nat)
  /-- Both writes returned; `close` is next. -/
  | wroteNewline
  /-- The process was terminated by `SIGPIPE`. -/
  | dead
  deriving DecidableEq, Repr

/-- Where the server is in `readFromPipe`. -/
inductive Reader where
  /-- Before `createReadStream`, or in the timeout before the next one. -/
  | closed
  /-- In `open`; `met` once a writer has opened the FIFO. -/
  | opening (met : Bool)
  | reading
  /-- End of file was read; the descriptor is about to be closed. -/
  | ended
  deriving DecidableEq, Repr

structure State where
  fifo : Fifo UInt8
  writer : Writer
  reader : Reader
  everOpened : Bool
  passed : List Event
  received : Bytes
  calls : List (Event × Bytes)
  reached : Bytes

inductive Action where
  /-- `onResult` is called and `open` returns. -/
  | onResult (e : Event)
  /-- The write of the text, of which `k` bytes are taken. -/
  | writeData (k : Nat)
  /-- The write of the newline, of which `k` bytes are taken. -/
  | writeNewline (k : Nat)
  | closeWriter
  | openReader
  | readerOpened
  /-- A read that returns `k` bytes. -/
  | read (k : Nat)
  /-- A read that returns end of file. -/
  | readEof
  | closeReader
  | crash
  deriving DecidableEq, Repr

/-- A writer has opened the FIFO, so a blocked `open` of the reader returns. -/
def Reader.meet : Reader → Reader
  | .opening _ => .opening true
  | r => r

/-- The engine dies of `SIGPIPE`; its descriptor is closed. -/
def die (s : State) : State :=
  { s with fifo := s.fifo.closeWrite, writer := .dead }

/-- The bytes taken by a write have reached the FIFO. -/
def take (s : State) (bytes : Bytes) : State :=
  { s with fifo := s.fifo.write bytes, reached := s.reached ++ bytes }

def step (capacity pipeBuf : Nat) (s : State) : Action → Option State
  | .onResult e => match s.writer with
      | .idle =>
          let s := { s with passed := if s.everOpened then s.passed ++ [e] else s.passed }
          -- `O_NONBLOCK`: without a reader `open` fails, and the event is dropped
          if s.fifo.readers = 0 then some { s with calls := s.calls ++ [(e, [])] }
          else some { s with
            fifo := s.fifo.openWrite
            writer := .opened e
            reader := s.reader.meet }
      | _ => none
  | .writeData k => match s.writer with
      | .opened e =>
          -- `EPIPE`, with `SIGPIPE` at its default action
          if s.fifo.readers = 0 then some { die s with calls := s.calls ++ [(e, [])] }
          else if s.fifo.MayAccept capacity pipeBuf (data e).length k then
            some { take s ((data e).take k) with writer := .wroteData e k }
          else none
      | _ => none
  | .writeNewline k => match s.writer with
      | .wroteData e accepted =>
          -- the newline is written whatever the first write returned
          let contribution := (data e).take accepted
          if s.fifo.readers = 0 then some { die s with calls := s.calls ++ [(e, contribution)] }
          else if s.fifo.MayAccept capacity pipeBuf 1 k then
            some { take s ([newline].take k) with
              writer := .wroteNewline
              calls := s.calls ++ [(e, contribution ++ [newline].take k)] }
          else none
      | _ => none
  | .closeWriter => match s.writer with
      | .wroteNewline => some { s with fifo := s.fifo.closeWrite, writer := .idle }
      | _ => none
  | .openReader => match s.reader with
      | .closed => some { s with
          fifo := s.fifo.openRead
          reader := .opening (s.fifo.writers != 0)
          everOpened := true }
      | _ => none
  -- the blocked `open` returns once both ends were opened
  | .readerOpened => match s.reader with
      | .opening true => some { s with reader := .reading }
      | _ => none
  | .read k => match s.reader with
      | .reading =>
          if 0 < k ∧ k ≤ s.fifo.buffer.length then
            some { s with fifo := s.fifo.read k, received := s.received ++ s.fifo.buffer.take k }
          else none
      | _ => none
  | .readEof => match s.reader with
      | .reading => if s.fifo.atEof then some { s with reader := .ended } else none
      | _ => none
  | .closeReader => match s.reader with
      | .ended => some { s with fifo := s.fifo.closeRead, reader := .closed }
      | _ => none
  | .crash => match s.reader with
      | .closed => none
      -- the kernel closes what a crashed process had open, an unfinished `open` included
      | _ => some { s with fifo := s.fifo.closeRead, reader := .closed }

/-- The transitions of `step`, one constructor for each outcome of an action. -/
inductive Moves (capacity pipeBuf : Nat) (s : State) : Action → State → Prop
  | openFails (e : Event) (hw : s.writer = .idle) (hr : s.fifo.readers = 0) :
      Moves capacity pipeBuf s (.onResult e) { s with
        passed := if s.everOpened then s.passed ++ [e] else s.passed
        calls := s.calls ++ [(e, [])] }
  | opens (e : Event) (hw : s.writer = .idle) (hr : s.fifo.readers ≠ 0) :
      Moves capacity pipeBuf s (.onResult e) { s with
        passed := if s.everOpened then s.passed ++ [e] else s.passed
        fifo := s.fifo.openWrite
        writer := .opened e
        reader := s.reader.meet }
  | textKills (k : Nat) (e : Event) (hw : s.writer = .opened e) (hr : s.fifo.readers = 0) :
      Moves capacity pipeBuf s (.writeData k) { die s with calls := s.calls ++ [(e, [])] }
  | textTaken (k : Nat) (e : Event) (hw : s.writer = .opened e) (hr : s.fifo.readers ≠ 0)
      (hk : s.fifo.MayAccept capacity pipeBuf (data e).length k) :
      Moves capacity pipeBuf s (.writeData k)
        { take s ((data e).take k) with writer := .wroteData e k }
  | newlineKills (k : Nat) (e : Event) (accepted : Nat) (hw : s.writer = .wroteData e accepted)
      (hr : s.fifo.readers = 0) :
      Moves capacity pipeBuf s (.writeNewline k)
        { die s with calls := s.calls ++ [(e, (data e).take accepted)] }
  | newlineTaken (k : Nat) (e : Event) (accepted : Nat) (hw : s.writer = .wroteData e accepted)
      (hr : s.fifo.readers ≠ 0) (hk : s.fifo.MayAccept capacity pipeBuf 1 k) :
      Moves capacity pipeBuf s (.writeNewline k) { take s ([newline].take k) with
        writer := .wroteNewline
        calls := s.calls ++ [(e, (data e).take accepted ++ [newline].take k)] }
  | writerCloses (hw : s.writer = .wroteNewline) :
      Moves capacity pipeBuf s .closeWriter { s with fifo := s.fifo.closeWrite, writer := .idle }
  | readerOpens (hr : s.reader = .closed) :
      Moves capacity pipeBuf s .openReader { s with
        fifo := s.fifo.openRead
        reader := .opening (s.fifo.writers != 0)
        everOpened := true }
  | readerOpened (hr : s.reader = .opening true) :
      Moves capacity pipeBuf s .readerOpened { s with reader := .reading }
  | reads (k : Nat) (hr : s.reader = .reading) (hk : 0 < k ∧ k ≤ s.fifo.buffer.length) :
      Moves capacity pipeBuf s (.read k)
        { s with fifo := s.fifo.read k, received := s.received ++ s.fifo.buffer.take k }
  | readsEof (hr : s.reader = .reading) (heof : s.fifo.atEof = true) :
      Moves capacity pipeBuf s .readEof { s with reader := .ended }
  | readerCloses (hr : s.reader = .ended) :
      Moves capacity pipeBuf s .closeReader { s with fifo := s.fifo.closeRead, reader := .closed }
  | crashes (hr : s.reader ≠ .closed) :
      Moves capacity pipeBuf s .crash { s with fifo := s.fifo.closeRead, reader := .closed }

theorem moves_of_step {capacity pipeBuf : Nat} {s t : State} {a : Action}
    (h : step capacity pipeBuf s a = some t) : Moves capacity pipeBuf s a t := by
  cases a with
  | onResult e =>
      simp only [step] at h
      split at h
      · rename_i hw
        by_cases hr : s.fifo.readers = 0
        · rw [if_pos hr, Option.some.injEq] at h
          exact h ▸ .openFails e hw hr
        · rw [if_neg hr, Option.some.injEq] at h
          exact h ▸ .opens e hw hr
      · exact absurd h (by simp only [reduceCtorEq, not_false_eq_true])
  | writeData k =>
      cases hw : s.writer <;> simp only [step, hw, reduceCtorEq] at h
      rename_i e
      by_cases hr : s.fifo.readers = 0
      · rw [if_pos hr, Option.some.injEq] at h
        exact h ▸ .textKills k e hw hr
      · rw [if_neg hr, Option.ite_none_right_eq_some, Option.some.injEq] at h
        exact h.2 ▸ .textTaken k e hw hr h.1
  | writeNewline k =>
      cases hw : s.writer <;> simp only [step, hw, reduceCtorEq] at h
      rename_i e accepted
      by_cases hr : s.fifo.readers = 0
      · rw [if_pos hr, Option.some.injEq] at h
        exact h ▸ .newlineKills k e accepted hw hr
      · rw [if_neg hr, Option.ite_none_right_eq_some, Option.some.injEq] at h
        exact h.2 ▸ .newlineTaken k e accepted hw hr h.1
  | closeWriter =>
      cases hw : s.writer <;> simp only [step, hw, reduceCtorEq, Option.some.injEq] at h
      exact h ▸ .writerCloses hw
  | openReader =>
      cases hr : s.reader <;> simp only [step, hr, reduceCtorEq, Option.some.injEq] at h
      exact h ▸ .readerOpens hr
  | readerOpened =>
      cases hr : s.reader with
      | opening met =>
          cases met <;> simp only [step, hr, reduceCtorEq, Option.some.injEq] at h
          exact h ▸ .readerOpened hr
      | _ => simp only [step, hr, reduceCtorEq] at h
  | read k =>
      simp only [step] at h
      split at h
      · rename_i hr
        rw [Option.ite_none_right_eq_some, Option.some.injEq] at h
        exact h.2 ▸ .reads k hr h.1
      · exact absurd h (by simp only [reduceCtorEq, not_false_eq_true])
  | readEof =>
      cases hr : s.reader <;> simp only [step, hr, reduceCtorEq] at h
      rw [Option.ite_none_right_eq_some, Option.some.injEq] at h
      exact h.2 ▸ .readsEof hr h.1
  | closeReader =>
      cases hr : s.reader <;> simp only [step, hr, reduceCtorEq, Option.some.injEq] at h
      exact h ▸ .readerCloses hr
  | crash =>
      by_cases hr : s.reader = .closed
      · simp only [step, hr, reduceCtorEq] at h
      · cases hs : s.reader <;> simp only [step, hs, reduceCtorEq, Option.some.injEq] at h <;>
          exact h ▸ .crashes hr

/-- Neither side has opened the FIFO. -/
def init : State where
  fifo := Fifo.empty
  writer := .idle
  reader := .closed
  everOpened := false
  passed := []
  received := []
  calls := []
  reached := []

/-- The server has the FIFO open and reads; no event was passed yet. -/
def listening : State :=
  { init with fifo := ⟨1, 0, []⟩, reader := .reading, everOpened := true }

end EventPipe

end Isolyx
