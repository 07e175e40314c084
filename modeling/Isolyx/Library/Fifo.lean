import Mathlib.Tactic.Common

/-!
# Named Pipes

A FIFO as POSIX describes it: a queue that exists as long as some descriptor
of it is open at either end. A process that is still blocked in opening one
end counts as having it open. When the last descriptor closes, what is queued
is discarded (`settle`), which is the one way a FIFO loses data.

How much of a write is taken is up to the system within three bounds. No more
is taken than was offered or than there is room for, and a write of at most
`PIPE_BUF` bytes is taken whole or not at all.

## Main definitions

* `Fifo`: The open descriptors and the queue.
* `closeRead`, `closeWrite`: Closing a descriptor.
* `atEof`: A read would return end of file.
* `MayAccept`: How much of a non-blocking write may be taken.

## Theorems

* `closeRead_buffer`: The queue survives the closing of a read end while
  something else is open.
* `closeWrite_buffer`: The same for a write end.
* `closeRead_last`: The last descriptor to close discards the queue.
* `closeWrite_last`: The same for a write end.
* `closeRead_buffer_iff`: Closing a read end keeps the queue exactly then.
* `closeWrite_buffer_iff`: The same for a write end.
-/

/-- A FIFO: the descriptors open at either end, and the queue. -/
structure Fifo (α : Type) where
  readers : Nat
  writers : Nat
  buffer : List α
  deriving DecidableEq, Repr

namespace Fifo

variable {α : Type}

def empty : Fifo α := ⟨0, 0, []⟩

/-- The queue is discarded when nothing is open. -/
def settle (f : Fifo α) : Fifo α :=
  if f.readers = 0 ∧ f.writers = 0 then { f with buffer := [] } else f

def openRead (f : Fifo α) : Fifo α := { f with readers := f.readers + 1 }

def openWrite (f : Fifo α) : Fifo α := { f with writers := f.writers + 1 }

def closeRead (f : Fifo α) : Fifo α := settle { f with readers := f.readers - 1 }

def closeWrite (f : Fifo α) : Fifo α := settle { f with writers := f.writers - 1 }

def write (f : Fifo α) (xs : List α) : Fifo α := { f with buffer := f.buffer ++ xs }

/-- Take the first `k` elements out. -/
def read (f : Fifo α) (k : Nat) : Fifo α := { f with buffer := f.buffer.drop k }

/-- A read returns end of file: nothing is queued and nobody can write. -/
def atEof (f : Fifo α) : Bool := f.buffer.isEmpty && f.writers == 0

/-- Of a non-blocking write of `n` elements, `k` may be taken. -/
def MayAccept (capacity pipeBuf : Nat) (f : Fifo α) (n k : Nat) : Prop :=
  k ≤ n ∧ f.buffer.length + k ≤ capacity ∧ (n ≤ pipeBuf → k = 0 ∨ k = n)

instance (capacity pipeBuf : Nat) (f : Fifo α) (n k : Nat) :
    Decidable (MayAccept capacity pipeBuf f n k) :=
  inferInstanceAs (Decidable (_ ∧ _ ∧ _))

theorem settle_readers (f : Fifo α) : (settle f).readers = f.readers := by
  unfold settle
  split <;> rfl

theorem settle_writers (f : Fifo α) : (settle f).writers = f.writers := by
  unfold settle
  split <;> rfl

@[simp]
theorem closeRead_readers (f : Fifo α) : f.closeRead.readers = f.readers - 1 :=
  settle_readers _

@[simp]
theorem closeRead_writers (f : Fifo α) : f.closeRead.writers = f.writers :=
  settle_writers _

@[simp]
theorem closeWrite_readers (f : Fifo α) : f.closeWrite.readers = f.readers :=
  settle_readers _

@[simp]
theorem closeWrite_writers (f : Fifo α) : f.closeWrite.writers = f.writers - 1 :=
  settle_writers _

/-- The queue survives while something else is open, or if it is empty. -/
theorem closeRead_buffer {f : Fifo α} (h : 1 < f.readers ∨ 0 < f.writers ∨ f.buffer = []) :
    f.closeRead.buffer = f.buffer := by
  unfold closeRead settle
  by_cases hlast : f.readers - 1 = 0 ∧ f.writers = 0
  · rw [if_pos hlast]
    -- It was the last descriptor, so the queue was empty before.
    have hnil : f.buffer = [] := h.elim (fun h => by omega) fun h => h.elim (fun h => by omega) id
    exact hnil.symm
  · rw [if_neg hlast]

theorem closeWrite_buffer {f : Fifo α} (h : 0 < f.readers ∨ 1 < f.writers ∨ f.buffer = []) :
    f.closeWrite.buffer = f.buffer := by
  unfold closeWrite settle
  by_cases hlast : f.readers = 0 ∧ f.writers - 1 = 0
  · rw [if_pos hlast]
    have hnil : f.buffer = [] := h.elim (fun h => by omega) fun h => h.elim (fun h => by omega) id
    exact hnil.symm
  · rw [if_neg hlast]

/-- The last descriptor to close discards the queue. -/
theorem closeRead_last {f : Fifo α} (h : f.readers ≤ 1) (hw : f.writers = 0) :
    f.closeRead.buffer = [] := by
  unfold closeRead settle
  rw [if_pos ⟨Nat.sub_eq_zero_of_le h, hw⟩]

theorem closeWrite_last {f : Fifo α} (h : f.writers ≤ 1) (hr : f.readers = 0) :
    f.closeWrite.buffer = [] := by
  unfold closeWrite settle
  rw [if_pos ⟨hr, Nat.sub_eq_zero_of_le h⟩]

/-- Closing a read end keeps the queue exactly when nothing was in it or
    something else is open. -/
theorem closeRead_buffer_iff (f : Fifo α) : f.closeRead.buffer = f.buffer ↔
    1 < f.readers ∨ 0 < f.writers ∨ f.buffer = [] := by
  refine ⟨fun h => ?_, closeRead_buffer⟩
  -- With nothing else open the queue is discarded, so it had been empty.
  by_cases hr : 1 < f.readers
  · exact Or.inl hr
  · by_cases hw : 0 < f.writers
    · exact Or.inr (Or.inl hw)
    · rw [closeRead_last (by omega) (by omega)] at h
      exact Or.inr (Or.inr h.symm)

theorem closeWrite_buffer_iff (f : Fifo α) : f.closeWrite.buffer = f.buffer ↔
    0 < f.readers ∨ 1 < f.writers ∨ f.buffer = [] := by
  refine ⟨fun h => ?_, closeWrite_buffer⟩
  by_cases hr : 0 < f.readers
  · exact Or.inl hr
  · by_cases hw : 1 < f.writers
    · exact Or.inr (Or.inl hw)
    · rw [closeWrite_last (by omega) (by omega)] at h
      exact Or.inr (Or.inr h.symm)

/-- What a closing leaves of the queue is all of it or nothing. -/
theorem closeWrite_cases (f : Fifo α) :
    f.closeWrite.buffer = f.buffer ∨ f.closeWrite.buffer = [] := by
  unfold closeWrite settle
  split
  · exact Or.inr rfl
  · exact Or.inl rfl

end Fifo
