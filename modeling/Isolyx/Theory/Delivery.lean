import Isolyx.Core.EventPipe

/-!
# Delivery of Events

Whether every event passed to `onResult` reaches the server. In a state where
nothing was lost, what the server received, what is queued and what the engine
is still about to write are together exactly the lines of the events passed
(`Delivered`), so each event is received once and in order as soon as it is
read.

Every step either keeps that or destroys it for good, and which of the two
depends on the state it is taken in and on how much of a write is taken
(`Complies`). There are three ways to lose an event: opening the FIFO while
the server has it closed, a write that is not taken whole or finds no reader,
and a closing that leaves nothing open while something is queued. The last one
needs nothing unusual. It happens when an event is written between the
server's end of file and its closing.

## Main definitions

* `Wf`: The descriptors the two sides hold are the ones the FIFO counts.
* `Delivered`: Nothing was lost, duplicated or reordered.
* `Complies`: The step loses nothing.

## Theorems

* `wf_step`: Every step keeps the descriptors counted.
* `delivered_moves`: A step loses nothing exactly when it complies.
* `delivered_settled`: With nothing under way, everything was received.
* `delivered_iff_complies`: A run loses nothing exactly when all its steps
  comply.
* `run_lost`: Two events close together, and the second is lost.
* `event_lost_at_close`: Not every event is delivered.
-/

namespace Isolyx

namespace EventPipe

variable {capacity pipeBuf : Nat}

/-- The descriptors the engine holds. -/
def Writer.descriptors : Writer → Nat
  | .opened _ => 1
  | .wroteData _ _ => 1
  | .wroteNewline => 1
  | _ => 0

/-- The descriptors the server holds, an unfinished `open` included. -/
def Reader.descriptors : Reader → Nat
  | .closed => 0
  | _ => 1

/-- The descriptors the two sides hold are the ones the FIFO counts, and the
    server holds one only if it ever opened the FIFO. -/
structure Wf (s : State) : Prop where
  writers : s.fifo.writers = s.writer.descriptors
  readers : s.fifo.readers = s.reader.descriptors
  everOpened : 0 < s.fifo.readers → s.everOpened = true

theorem wf_init : Wf init := ⟨rfl, rfl, fun h => absurd h (by decide)⟩

theorem meet_descriptors (r : Reader) : r.meet.descriptors = r.descriptors := by
  cases r <;> rfl

theorem wf_moves {s t : State} {a : Action} (hs : Wf s)
    (h : Moves capacity pipeBuf s a t) : Wf t := by
  have hw := hs.writers
  have hr := hs.readers
  cases h with
  | openFails e _ _ => exact ⟨hw, hr, hs.everOpened⟩
  | opens e hwriter _ =>
      rw [hwriter] at hw
      exact ⟨congrArg (· + 1) hw, hr.trans (meet_descriptors s.reader).symm, hs.everOpened⟩
  | textKills k e hwriter _ =>
      rw [hwriter] at hw
      exact ⟨by simp only [die, Fifo.closeWrite_writers, hw]; rfl,
        by simp only [die, Fifo.closeWrite_readers, hr],
        by simp only [die, Fifo.closeWrite_readers]; exact hs.everOpened⟩
  | textTaken k e hwriter _ _ =>
      rw [hwriter] at hw
      exact ⟨hw, hr, hs.everOpened⟩
  | newlineKills k e accepted hwriter _ =>
      rw [hwriter] at hw
      exact ⟨by simp only [die, Fifo.closeWrite_writers, hw]; rfl,
        by simp only [die, Fifo.closeWrite_readers, hr],
        by simp only [die, Fifo.closeWrite_readers]; exact hs.everOpened⟩
  | newlineTaken k e accepted hwriter _ _ =>
      rw [hwriter] at hw
      exact ⟨hw, hr, hs.everOpened⟩
  | writerCloses hwriter =>
      rw [hwriter] at hw
      exact ⟨by simp only [Fifo.closeWrite_writers, hw]; rfl,
        by simp only [Fifo.closeWrite_readers, hr],
        by simp only [Fifo.closeWrite_readers]; exact hs.everOpened⟩
  | readerOpens hreader =>
      rw [hreader] at hr
      exact ⟨hw, congrArg (· + 1) hr, fun _ => rfl⟩
  | readerOpened hreader =>
      rw [hreader] at hr
      exact ⟨hw, hr, hs.everOpened⟩
  | reads k _ _ => exact ⟨hw, hr, hs.everOpened⟩
  | readsEof hreader _ =>
      rw [hreader] at hr
      exact ⟨hw, hr, hs.everOpened⟩
  | readerCloses hreader =>
      rw [hreader] at hr
      exact ⟨by simp only [Fifo.closeRead_writers, hw],
        by simp only [Fifo.closeRead_readers, hr]; rfl,
        fun h => hs.everOpened (by simp only [Fifo.closeRead_readers] at h; omega)⟩
  | crashes hreader =>
      -- Wherever the server crashes, it holds one descriptor.
      have hone : s.reader.descriptors = 1 := by
        cases hc : s.reader <;> first | exact absurd hc hreader | rfl
      rw [hone] at hr
      exact ⟨by simp only [Fifo.closeRead_writers, hw],
        by simp only [Fifo.closeRead_readers, hr]; rfl,
        fun h => hs.everOpened (by simp only [Fifo.closeRead_readers] at h; omega)⟩

/-- Every step keeps the descriptors counted. -/
theorem wf_step (s : State) (a : Action) (t : State) (hs : Wf s)
    (h : step capacity pipeBuf s a = some t) : Wf t :=
  wf_moves hs (moves_of_step h)

/-! ## What a step loses -/

/-- What the engine is still about to write of the event in its hands. -/
def pending : Writer → Bytes
  | .opened e => line e
  | .wroteData _ _ => [newline]
  | .idle | .wroteNewline | .dead => []

/-- What was received, what is queued and what is about to be written are the
    lines of the events passed, each once and in order. -/
def Delivered (s : State) : Prop :=
  s.received ++ s.fifo.buffer ++ pending s.writer = s.passed.flatMap line

/-- The step loses nothing: the server has the FIFO open when it is opened for
    writing and when it is written to, a write is taken whole, and no closing
    leaves nothing open while something is queued. -/
def Complies (s : State) : Action → Prop
  | .onResult _ => s.everOpened = true → 0 < s.fifo.readers
  | .writeData k => 0 < s.fifo.readers ∧ ∀ e, s.writer = .opened e → k = (data e).length
  | .writeNewline k => 0 < s.fifo.readers ∧ k = 1
  | .closeWriter => 0 < s.fifo.readers ∨ s.fifo.buffer = []
  | .closeReader => 0 < s.fifo.writers ∨ s.fifo.buffer = []
  | .crash => 0 < s.fifo.writers ∨ s.fifo.buffer = []
  | _ => True

theorem take_eq_self {l : Bytes} {k : Nat} (hk : k ≤ l.length) :
    l.take k = l ↔ k = l.length := by
  constructor
  · intro h
    have hlen := congrArg List.length h
    rw [List.length_take] at hlen
    omega
  · rintro rfl
    exact List.take_length

/-- A queue that shrinks, with bytes about to be written that are not, cannot
    add up to what it added up to before. -/
theorem lost {r b b' p l : Bytes} (hb : b' = b ∨ b' = []) (hp : p ≠ [])
    (h : r ++ b ++ p = l) : ¬ r ++ b' ++ [] = l := by
  intro h'
  have hlen := congrArg List.length (h.trans h'.symm)
  have hpos := List.length_pos_iff.mpr hp
  rcases hb with rfl | rfl <;> simp only [List.length_append, List.length_nil] at hlen <;> omega

/-- Closing an end loses nothing exactly when the queue survives. -/
theorem delivered_close {r b b' p l : Bytes} (h : r ++ b ++ p = l) :
    r ++ b' ++ p = l ↔ b' = b := by
  rw [← h]
  constructor
  · intro h'
    exact List.append_cancel_left (List.append_cancel_right h')
  · rintro rfl
    rfl

/-- From a state where nothing was lost, a step loses nothing exactly when it
    complies. -/
theorem delivered_moves {s t : State} {a : Action} (hs : Wf s) (hd : Delivered s)
    (h : Moves capacity pipeBuf s a t) : Delivered t ↔ Complies s a := by
  unfold Delivered at hd ⊢
  cases h with
  | openFails e hw hr =>
      -- A failed `open` loses the event, unless the server never came up so far.
      cases hever : s.everOpened with
      | false =>
          refine iff_of_true ?_ (fun h => absurd h (by rw [hever]; exact Bool.false_ne_true))
          simp only [Bool.false_eq_true, if_false]
          exact hd
      | true =>
          refine iff_of_false (fun h => ?_) (fun h => by have := h hever; omega)
          simp only [if_true, List.flatMap_append] at h
          -- The line passed is longer than nothing.
          have hlen := congrArg List.length (hd.symm.trans h)
          simp only [line, List.length_append, List.flatMap_cons, List.flatMap_nil,
            List.length_cons] at hlen
          omega
  | opens e hw hr =>
      have hever := hs.everOpened (Nat.pos_of_ne_zero hr)
      refine iff_of_true ?_ (fun _ => Nat.pos_of_ne_zero hr)
      rw [hw, pending, List.append_nil] at hd
      simp only [hever, if_true, List.flatMap_append, List.flatMap_cons, List.flatMap_nil,
        List.append_nil, ← hd]
      rfl
  | textKills k e hw hr =>
      rw [hw] at hd
      -- The text in the engine's hands dies with it.
      refine iff_of_false (lost (Fifo.closeWrite_cases s.fifo) ?_ hd) (fun h => ?_)
      · simp only [pending, line, ne_eq, List.append_eq_nil_iff, reduceCtorEq, and_false,
          not_false_eq_true]
      · have := h.1
        omega
  | textTaken k e hw hr hk =>
      rw [hw] at hd
      -- The bytes move from the hands to the queue, so nothing is lost iff all of them do.
      have hcomp : Complies s (.writeData k) ↔ (data e).take k = data e := by
        rw [take_eq_self hk.1]
        constructor
        · exact fun h => h.2 e hw
        · refine fun h => ⟨Nat.pos_of_ne_zero hr, fun e' he' => ?_⟩
          rw [hw, Writer.opened.injEq] at he'
          exact he' ▸ h
      rw [hcomp]
      change s.received ++ (s.fifo.buffer ++ (data e).take k) ++ [newline] =
        s.passed.flatMap line ↔ _
      rw [← hd, pending, line]
      simp only [List.append_assoc, List.append_right_inj, List.append_left_inj]
  | newlineKills k e accepted hw hr =>
      rw [hw] at hd
      refine iff_of_false (lost (Fifo.closeWrite_cases s.fifo) ?_ hd) (fun h => ?_)
      · simp only [pending, ne_eq, reduceCtorEq, not_false_eq_true]
      · have := h.1
        omega
  | newlineTaken k e accepted hw hr hk =>
      rw [hw] at hd
      -- The same for the newline.
      have hcomp : Complies s (.writeNewline k) ↔ [newline].take k = [newline] := by
        rw [take_eq_self hk.1]
        exact ⟨fun h => h.2, fun h => ⟨Nat.pos_of_ne_zero hr, h⟩⟩
      rw [hcomp]
      change s.received ++ (s.fifo.buffer ++ [newline].take k) ++ [] = s.passed.flatMap line ↔ _
      rw [← hd, pending]
      simp only [List.append_assoc, List.append_right_inj, List.append_nil]
  | writerCloses hw =>
      rw [hw] at hd
      refine (delivered_close hd).trans ((Fifo.closeWrite_buffer_iff s.fifo).trans ?_)
      -- The engine's descriptor is the only one at its end.
      have hone : s.fifo.writers = 1 := by rw [hs.writers, hw]; rfl
      simp only [Complies, hone, Nat.lt_irrefl, false_or]
  | readerOpens _ => exact iff_of_true hd trivial
  | readerOpened _ => exact iff_of_true hd trivial
  | reads k _ _ =>
      refine iff_of_true ?_ trivial
      -- A read moves bytes from the queue to the server.
      simp only [Fifo.read]
      rw [List.append_assoc s.received, List.take_append_drop]
      exact hd
  | readsEof _ _ => exact iff_of_true hd trivial
  | readerCloses hr =>
      refine (delivered_close hd).trans ((Fifo.closeRead_buffer_iff s.fifo).trans ?_)
      have hone : s.fifo.readers = 1 := by rw [hs.readers, hr]; rfl
      simp only [Complies, hone, Nat.lt_irrefl, false_or]
  | crashes hr =>
      refine (delivered_close hd).trans ((Fifo.closeRead_buffer_iff s.fifo).trans ?_)
      have hone : s.fifo.readers = 1 := by
        rw [hs.readers]
        cases hc : s.reader <;> first | exact absurd hc hr | rfl
      simp only [Complies, hone, Nat.lt_irrefl, false_or]

/-- With nothing queued and no event in the engine's hands, the server has
    received the line of every event passed, once and in order. -/
theorem delivered_settled {s : State} (h : Delivered s) (hb : s.fifo.buffer = [])
    (hw : s.writer = .idle) : s.received = s.passed.flatMap line := by
  rw [Delivered, hb, hw, pending, List.append_nil, List.append_nil] at h
  exact h

/-- For every pipe, every sequence of calls of `onResult` and every
    interleaving with the server's steps: no event passed since the server
    first opened the FIFO is ever lost, duplicated or reordered, if and only if
    every step complies. -/
theorem delivered_iff_complies (capacity pipeBuf : Nat) (as : List Action) :
    Lts.Always (step capacity pipeBuf) Delivered init as ↔
      Lts.Along (step capacity pipeBuf) Complies init as :=
  Lts.always_iff_along (fun s a s' hi _ h => wf_step s a s' hi h)
    (fun _ _ _ hi hd h => delivered_moves hi hd (moves_of_step h)) as wf_init rfl

/-! ## How an event is lost -/

/-- One event written and read, up to the server's end of file. -/
def oneEvent (e : Event) : List Action := [
  .openReader, .onResult e, .readerOpened, .writeData (data e).length, .writeNewline 1,
  .closeWriter, .read ((data e).length + 1), .readEof]

/-- The server has read one event and end of file, and still has the FIFO open. -/
def afterEof (e : Event) : State where
  fifo := ⟨1, 0, []⟩
  writer := .idle
  reader := .ended
  everOpened := true
  passed := [e]
  received := line e
  calls := [(e, line e)]
  reached := line e

theorem run_oneEvent (e : Event) :
    Lts.run (step ((data e).length + 1) 4096) init (oneEvent e) = some (afterEof e) := by
  have htake : (data e ++ [newline]).take ((data e).length + 1) = data e ++ [newline] :=
    List.take_of_length_le (by rw [List.length_append]; exact Nat.le_refl _)
  simp [oneEvent, afterEof, Lts.run, step, init, Fifo.empty, Fifo.openRead, Fifo.openWrite,
    Fifo.closeWrite, Fifo.settle, Fifo.MayAccept, Fifo.write, Fifo.read, Fifo.atEof, Reader.meet,
    take, line, htake]

/-- An event written after the server's end of file and before its closing is
    gone: nothing is queued, and only the first line was received. -/
theorem run_lost (e : Event) : ∃ t,
    Lts.run (step ((data e).length + 1) 4096) (afterEof e) [.onResult e,
      .writeData (data e).length, .writeNewline 1, .closeWriter, .closeReader] = some t ∧
    t.writer = .idle ∧ t.fifo.buffer = [] ∧ t.received = line e ∧ t.passed = [e, e] := by
  simp [afterEof, Lts.run, step, Fifo.openWrite, Fifo.closeWrite, Fifo.closeRead, Fifo.settle,
    Fifo.MayAccept, Fifo.write, Reader.meet, take]

/-- Not every event is delivered. -/
theorem event_lost_at_close : ¬ ∀ (capacity pipeBuf : Nat) (as : List Action),
    Lts.Always (step capacity pipeBuf) Delivered init as := by
  intro hall
  rcases run_lost .quiet with ⟨t, hrun, hw, hb, hreceived, hpassed⟩
  have hboth := Lts.run_append.mpr ⟨_, run_oneEvent .quiet, hrun⟩
  have hsettled := delivered_settled (Lts.always_end (hall _ _ _) hboth) hb hw
  rw [hreceived, hpassed] at hsettled
  have hlen := congrArg List.length hsettled
  simp only [line, List.flatMap_cons, List.flatMap_nil, List.length_append, List.length_cons,
    List.length_nil] at hlen
  omega

end EventPipe

end Isolyx
