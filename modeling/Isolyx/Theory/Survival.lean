import Isolyx.Theory.Delivery

/-!
# Survival of the Engine

A write to a FIFO without a reader raises `SIGPIPE`, and the engine dies of it.
The only thing between a write and that is the success of the `open` before
it, and it says nothing about the moment of the write: the server may close
the FIFO in between, in ordinary operation because the event before made it
read end of file, or crash.

As long as the server does neither while the engine is between an `open` and
its last write, the engine lives (`survives`). Where the server does, the next
write kills, unless the server has opened the FIFO again before it
(`closing_kills`).

## Main definitions

* `Writer.writing`: A write is still to come.
* `Alive`: The engine has not been terminated.
* `KeepsReader`: The step takes no reader from under a write to come.

## Theorems

* `survives`: The engine lives if no reader is taken from under a write.
* `closing_kills`: If one is, a write at once kills.
* `crash_kills`: The server's behaviour can kill the engine.
-/

namespace Isolyx

namespace EventPipe

variable {capacity pipeBuf : Nat}

/-- A write of the event in the engine's hands is still to come. -/
def Writer.writing : Writer → Bool
  | .opened _ | .wroteData _ _ => true
  | .idle | .wroteNewline | .dead => false

/-- The engine has not been terminated. -/
def Alive (s : State) : Prop := s.writer ≠ .dead

/-- The server neither closes the FIFO nor crashes while a write is to come. -/
def KeepsReader (s : State) : Action → Prop
  | .closeReader | .crash => s.writer.writing = false
  | _ => True

/-- The engine lives, and a write to come has a reader. -/
structure Safe (s : State) : Prop where
  alive : Alive s
  reader : s.writer.writing = true → s.fifo.readers ≠ 0

theorem safe_moves {s t : State} {a : Action} (hs : Safe s) (hg : KeepsReader s a)
    (h : Moves capacity pipeBuf s a t) : Safe t := by
  cases h with
  | openFails e hw hr => exact ⟨hs.alive, hs.reader⟩
  | opens e hw hr => exact ⟨by simp only [Alive, ne_eq, reduceCtorEq, not_false_eq_true],
      fun _ => hr⟩
  -- A write without a reader would kill, and there is a reader.
  | textKills k e hw hr => exact absurd hr (hs.reader (by rw [hw]; rfl))
  | textTaken k e hw hr hk =>
      exact ⟨by simp only [Alive, ne_eq, reduceCtorEq, not_false_eq_true], fun _ => hr⟩
  | newlineKills k e accepted hw hr => exact absurd hr (hs.reader (by rw [hw]; rfl))
  | newlineTaken k e accepted hw hr hk =>
      exact ⟨by simp only [Alive, ne_eq, reduceCtorEq, not_false_eq_true], fun _ => hr⟩
  | writerCloses hw =>
      exact ⟨by simp only [Alive, ne_eq, reduceCtorEq, not_false_eq_true],
        fun h => absurd h (by simp only [Writer.writing, Bool.false_eq_true, not_false_eq_true])⟩
  | readerOpens hr => exact ⟨hs.alive, fun _ => Nat.succ_ne_zero _⟩
  | readerOpened hr => exact ⟨hs.alive, hs.reader⟩
  | reads k hr hk => exact ⟨hs.alive, hs.reader⟩
  | readsEof hr heof => exact ⟨hs.alive, hs.reader⟩
  -- The two steps that take the reader away are not taken under a write to come.
  | readerCloses hr =>
      exact ⟨hs.alive, fun h => absurd h (by rw [(hg : _ = false)]; exact Bool.false_ne_true)⟩
  | crashes hr =>
      exact ⟨hs.alive, fun h => absurd h (by rw [(hg : _ = false)]; exact Bool.false_ne_true)⟩

/-- For every pipe and every interleaving: if the server neither closes the
    FIFO nor crashes while a write is to come, the engine lives. -/
theorem survives (capacity pipeBuf : Nat) (as : List Action)
    (h : Lts.Along (step capacity pipeBuf) KeepsReader init as) :
    Lts.Always (step capacity pipeBuf) Alive init as :=
  (Lts.always_of_along (fun _ _ _ hs hg hstep => safe_moves hs hg (moves_of_step hstep)) as
    ⟨by simp only [Alive, init, ne_eq, reduceCtorEq, not_false_eq_true],
      fun h => absurd h (by simp only [init, Writer.writing, Bool.false_eq_true,
        not_false_eq_true])⟩ h).imp fun _ hs => hs.alive

/-- An event passed while the server reads is written without harm. -/
theorem survives_one_event : Lts.Always (step ((data .quiet).length + 1) 4096) Alive init
    (oneEvent .quiet) :=
  survives _ _ _ (Lts.along_of_forall (by simp only [oneEvent, List.mem_cons, List.not_mem_nil,
    or_false, forall_eq_or_imp, forall_eq, KeepsReader, implies_true, and_self]))

/-- What a closing of the server leaves: no reader, and the engine where it was. -/
theorem closing_leaves {s t : State} {c : Action} (hs : Wf s)
    (hc : c = .closeReader ∨ c = .crash) (ht : step capacity pipeBuf s c = some t) :
    t.fifo.readers = 0 ∧ t.writer = s.writer := by
  -- The server has one descriptor at most, so closing it leaves none.
  have hone : s.fifo.readers ≤ 1 := by
    rw [hs.readers]
    cases s.reader with
    | closed => exact Nat.zero_le 1
    | _ => exact Nat.le_refl 1
  rcases hc with rfl | rfl
  · cases moves_of_step ht with
    | readerCloses hr => exact ⟨by simp only [Fifo.closeRead_readers]; omega, rfl⟩
  · cases moves_of_step ht with
    | crashes hr => exact ⟨by simp only [Fifo.closeRead_readers]; omega, rfl⟩

/-- If a reader is taken from under a write to come, that write kills when it
    comes next. -/
theorem closing_kills {s t : State} {c : Action} (hs : Wf s) (hw : s.writer.writing = true)
    (hc : c = .closeReader ∨ c = .crash) (ht : step capacity pipeBuf s c = some t) :
    ∃ a u, (a = .writeData 0 ∨ a = .writeNewline 0) ∧ step capacity pipeBuf t a = some u ∧
      u.writer = .dead := by
  rcases closing_leaves hs hc ht with ⟨hr, hwriter⟩
  cases hcase : s.writer with
  | opened e =>
      refine ⟨.writeData 0, { die t with calls := t.calls ++ [(e, [])] }, Or.inl rfl, ?_, rfl⟩
      simp only [step, hwriter, hcase, hr, if_true]
  | wroteData e accepted =>
      refine ⟨.writeNewline 0, { die t with calls := t.calls ++ [(e, (data e).take accepted)] },
        Or.inr rfl, ?_, rfl⟩
      simp only [step, hwriter, hcase, hr, if_true]
  | _ => simp only [hcase, Writer.writing, Bool.false_eq_true] at hw

/-- The server's behaviour can kill the engine: after one event it closes, and
    the next event was opened just before. -/
theorem crash_kills : ¬ ∀ (capacity pipeBuf : Nat) (as : List Action),
    Lts.Always (step capacity pipeBuf) Alive init as := by
  intro hall
  have hkilled : ∃ t, Lts.run (step ((data .quiet).length + 1) 4096) (afterEof .quiet)
      [.onResult .quiet, .closeReader, .writeData 0] = some t ∧ t.writer = .dead := by
    simp [afterEof, Lts.run, step, Fifo.openWrite, Fifo.closeRead, Fifo.settle, die, Reader.meet]
  rcases hkilled with ⟨t, hrun, hdead⟩
  have hboth := Lts.run_append.mpr ⟨_, run_oneEvent .quiet, hrun⟩
  exact Lts.always_end (hall _ _ _) hboth hdead

end EventPipe

end Isolyx
