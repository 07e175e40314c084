import Mathlib.Data.List.Basic

/-!
# Programs on Streams

A program that reads elements one after the other, writes elements, and stops
some time. It learns nothing about how its input came: it asks for the next
element, and waits for it. So what it does is a function of its input alone, and
on an input that it has before it from the start it can just be run (`after`).

In a system of such programs a program is a `Process`. It reads its input as it
comes, in pieces of any size, before or after it asks for it, and what it writes
leaves it in pieces as well. As far as it has come, it did what it would do on
its own, on any input that begins with what it has read (`OnTrack`). So as long
as the program would stop on its own, a process does not get further than that,
and when it has stopped it has written all of it (`OnTrack.bound`).

## Main definitions

* `Request`: What a program does next.
* `advance`, `after`: A program on its own.
* `Yields`: What it writes on an input, and how it stops.
* `Process`: A program in a system, with what it has read and written.
* `OnTrack`: A process does what the program would do on its own.

## Theorems

* `onTrack_fresh`, `onTrack_fill`, `onTrack_see`, `onTrack_tick`,
  `onTrack_flush`: A process stays on track.
* `OnTrack.bound`: What a process can have done, on an input.
-/

namespace Streams

variable {α σ β : Type*}

/-- What a program does next. -/
inductive Request (α σ β : Type*) where
  /-- It goes on when it has the next element, or knows that there is none. -/
  | read (resume : Option α → σ)
  | write (a : α) (next : σ)
  | stop (status : β)

/-- A program on its own, with the rest of its input. -/
structure Config (α σ : Type*) where
  state : σ
  input : List α
  output : List α

variable (prog : σ → Request α σ β)

def advance (c : Config α σ) : Option (Config α σ) :=
  match prog c.state with
  | .read resume => match c.input with
    | [] => some { c with state := resume none }
    | a :: rest => some { c with state := resume (some a), input := rest }
  | .write a next => some { c with state := next, output := c.output ++ [a] }
  | .stop _ => none

def after : Nat → Config α σ → Option (Config α σ)
  | 0, c => some c
  | n + 1, c => (after n c).bind (advance prog)

/-- On this input it stops after so many steps. -/
def Yields (start : σ) (input output : List α) (status : β) (steps : Nat) : Prop :=
  ∃ c, after prog steps ⟨start, input, []⟩ = some c ∧ c.output = output ∧
    prog c.state = .stop status

variable {prog}

theorem after_add (m n : Nat) (c : Config α σ) :
    after prog (m + n) c = (after prog m c).bind (after prog n) := by
  induction n with
  | zero =>
      rw [Nat.add_zero]
      exact (Option.bind_fun_some _).symm
  | succ n ih =>
      rw [← Nat.add_assoc, after, ih, Option.bind_assoc]
      rfl

theorem advance_of_stop {c : Config α σ} {status : β} (h : prog c.state = .stop status) :
    advance prog c = none := by
  rw [advance, h]

theorem output_advance {c d : Config α σ} (h : advance prog c = some d) :
    c.output <+: d.output := by
  unfold advance at h
  split at h
  · split at h
    · exact Option.some.inj h ▸ List.prefix_rfl
    · exact Option.some.inj h ▸ List.prefix_rfl
  · rw [← Option.some.inj h]
    exact List.prefix_append _ _
  · simp only [reduceCtorEq] at h

/-- What was written stays written. -/
theorem output_after {n : Nat} {c d : Config α σ} (h : after prog n c = some d) :
    c.output <+: d.output := by
  induction n generalizing d with
  | zero => exact Option.some.inj h ▸ List.prefix_rfl
  | succ n ih =>
      rcases Option.bind_eq_some_iff.mp h with ⟨e, he, hd⟩
      exact (ih he).trans (output_advance hd)

/-- On the way to its end, a program has written a part of what it writes. -/
theorem Yields.bound {start : σ} {input output : List α} {status : β} {steps n : Nat}
    (hy : Yields prog start input output status steps) {d : Config α σ}
    (hd : after prog n ⟨start, input, []⟩ = some d) :
    n ≤ steps ∧ d.output <+: output ∧
      ∀ st, prog d.state = .stop st → d.output = output ∧ st = status := by
  rcases hy with ⟨c, hc, hout, hstop⟩
  have hle : n ≤ steps := by
    by_contra hlt
    obtain ⟨k, rfl⟩ : ∃ k, n = steps + 1 + k := ⟨n - (steps + 1), by omega⟩
    rw [after_add, after, hc, Option.bind_some, advance_of_stop hstop] at hd
    simp only [Option.bind_none, reduceCtorEq] at hd
  obtain ⟨k, rfl⟩ : ∃ k, steps = n + k := ⟨steps - n, by omega⟩
  rw [after_add, hd, Option.bind_some] at hc
  refine ⟨hle, hout ▸ output_after hc, fun st hst => ?_⟩
  cases k with
  | zero =>
      have hsame : d = c := Option.some.inj hc
      rw [hsame, hstop] at hst
      exact ⟨hsame ▸ hout, (Request.stop.inj hst).symm⟩
  | succ k =>
      rw [Nat.add_comm k 1, after_add, after, after, Option.bind_some, advance_of_stop hst] at hc
      simp only [Option.bind_none, reduceCtorEq] at hc

/-! ## Processes -/

/-- A program in a system. -/
structure Process (α σ : Type*) where
  state : σ
  /-- What the program was given of what was read. -/
  consumed : List α
  unread : List α
  /-- It was seen that the input has come to its end. -/
  sawEnd : Bool
  unwritten : List α
  written : List α
  /-- The steps of the program. -/
  ticks : Nat

namespace Process

def fresh (start : σ) : Process α σ where
  state := start
  consumed := []
  unread := []
  sawEnd := false
  unwritten := []
  written := []
  ticks := 0

def received (p : Process α σ) : List α := p.consumed ++ p.unread

def emitted (p : Process α σ) : List α := p.written ++ p.unwritten

/-- Elements are read. -/
def fill (p : Process α σ) (items : List α) : Process α σ := { p with unread := p.unread ++ items }

def see (p : Process α σ) : Process α σ := { p with sawEnd := true }

/-- The first ones leave the process. -/
def flush (p : Process α σ) (k : Nat) : Process α σ :=
  { p with written := p.written ++ p.unwritten.take k, unwritten := p.unwritten.drop k }

/-- A step of the program, if it does not have to wait for its input. -/
def tick (prog : σ → Request α σ β) (p : Process α σ) : Option (Process α σ) :=
  match prog p.state with
  | .read resume => match p.unread with
    | a :: rest => some { p with
        state := resume (some a)
        consumed := p.consumed ++ [a]
        unread := rest
        ticks := p.ticks + 1 }
    | [] =>
        if p.sawEnd then some { p with state := resume none, ticks := p.ticks + 1 } else none
  | .write a next => some { p with
      state := next
      unwritten := p.unwritten ++ [a]
      ticks := p.ticks + 1 }
  | .stop _ => none

@[simp] theorem received_fill (p : Process α σ) (items : List α) :
    (p.fill items).received = p.received ++ items := (List.append_assoc ..).symm

@[simp] theorem written_fill (p : Process α σ) (items : List α) :
    (p.fill items).written = p.written := rfl

@[simp] theorem sawEnd_fill (p : Process α σ) (items : List α) :
    (p.fill items).sawEnd = p.sawEnd := rfl

@[simp] theorem ticks_fill (p : Process α σ) (items : List α) : (p.fill items).ticks = p.ticks :=
  rfl

@[simp] theorem written_see (p : Process α σ) : p.see.written = p.written := rfl

@[simp] theorem sawEnd_see (p : Process α σ) : p.see.sawEnd = true := rfl

@[simp] theorem ticks_see (p : Process α σ) : p.see.ticks = p.ticks := rfl

@[simp] theorem written_flush (p : Process α σ) (k : Nat) :
    (p.flush k).written = p.written ++ p.unwritten.take k := rfl

@[simp] theorem sawEnd_flush (p : Process α σ) (k : Nat) : (p.flush k).sawEnd = p.sawEnd := rfl

@[simp] theorem ticks_flush (p : Process α σ) (k : Nat) : (p.flush k).ticks = p.ticks := rfl

@[simp] theorem received_see (p : Process α σ) : p.see.received = p.received := rfl

@[simp] theorem received_flush (p : Process α σ) (k : Nat) : (p.flush k).received = p.received :=
  rfl

@[simp] theorem emitted_flush (p : Process α σ) (k : Nat) : (p.flush k).emitted = p.emitted := by
  simp only [emitted, flush, List.append_assoc, List.take_append_drop]

end Process

variable {start : σ} {p q : Process α σ}

/-- What a step of the program changes, and what it keeps. -/
theorem Process.tick_spec (h : p.tick prog = some q) :
    q.received = p.received ∧ q.written = p.written ∧ q.sawEnd = p.sawEnd ∧
      q.ticks = p.ticks + 1 := by
  unfold tick at h
  split at h
  · split at h
    · rename_i hunread
      rw [← Option.some.inj h]
      refine ⟨?_, rfl, rfl, rfl⟩
      simp only [received, hunread, List.append_assoc, List.singleton_append]
    · split at h
      · rw [← Option.some.inj h]
        exact ⟨rfl, rfl, rfl, rfl⟩
      · simp only [reduceCtorEq] at h
  · rw [← Option.some.inj h]
    exact ⟨rfl, rfl, rfl, rfl⟩
  · simp only [reduceCtorEq] at h

variable (prog start) in
/-- The process did what the program would do on its own, on any input that
    begins with what was read, or is that, if the end was seen. -/
def OnTrack (p : Process α σ) : Prop :=
  ∀ input, p.received <+: input → (p.sawEnd = true → p.received = input) →
    after prog p.ticks ⟨start, input, []⟩
      = some ⟨p.state, input.drop p.consumed.length, p.emitted⟩

theorem onTrack_fresh : OnTrack prog start (Process.fresh start) := fun _ _ _ => rfl

theorem onTrack_fill (h : OnTrack prog start p) (hopen : p.sawEnd = false) (items : List α) :
    OnTrack prog start (p.fill items) := by
  intro input hpart _
  rw [Process.received_fill] at hpart
  refine h input ((List.prefix_append _ _).trans hpart) fun hend => ?_
  rw [hopen] at hend
  exact absurd hend Bool.false_ne_true

theorem onTrack_see (h : OnTrack prog start p) : OnTrack prog start p.see :=
  fun input hpart hend => h input hpart fun _ => hend rfl

theorem onTrack_flush (h : OnTrack prog start p) (k : Nat) : OnTrack prog start (p.flush k) := by
  intro input hpart hend
  rw [Process.emitted_flush]
  exact h input hpart hend

theorem onTrack_tick (h : OnTrack prog start p) (ht : p.tick prog = some q) :
    OnTrack prog start q := by
  intro input hpart hend
  rcases Process.tick_spec ht with ⟨hreceived, _, hseen, hticks⟩
  rw [hreceived] at hpart hend
  rw [hseen] at hend
  rw [hticks, after, h input hpart hend, Option.bind_some, advance]
  rcases hpart with ⟨more, rfl⟩
  unfold Process.tick at ht
  split at ht
  · rename_i resume hp
    simp only [hp, Process.received, List.append_assoc, List.drop_left]
    split at ht
    · rename_i a rest hunread
      rw [← Option.some.inj ht]
      simp only [hunread, List.cons_append, List.length_append, List.length_singleton,
        ← List.drop_drop, List.drop_left]
      rfl
    · rename_i hunread
      rw [Option.ite_none_right_eq_some] at ht
      have hnone : more = [] := List.append_right_eq_self.mp (hend ht.1).symm
      rw [← Option.some.inj ht.2]
      simp only [hunread, hnone, List.append_nil, List.drop_length]
      rfl
  · rename_i a next hp
    rw [← Option.some.inj ht]
    simp only [hp, Process.emitted, List.append_assoc]
  · simp only [reduceCtorEq] at ht

/-- On an input on which the program stops, a process on track comes no further
    than that, and if it has stopped it wrote all. -/
theorem OnTrack.bound (h : OnTrack prog start p) {input output : List α} {status : β} {steps : Nat}
    (hy : Yields prog start input output status steps) (hpart : p.received <+: input)
    (hend : p.sawEnd = true → p.received = input) :
    p.ticks ≤ steps ∧ p.emitted <+: output ∧
      ∀ st, prog p.state = .stop st → p.emitted = output ∧ st = status :=
  hy.bound (h input hpart hend)

end Streams
