import Isolyx.Theory.Delivery

/-!
# Framing of Events

What a call of `onResult` puts into the FIFO while the server has it open. The
text and its newline are two writes, and neither result is looked at, so each
of the four ways they can turn out makes its own contribution. Only two of
them are a line or nothing: both writes are taken whole, or both are refused
(`lines_iff_uniform`). A text that is cut short is a truncated event, and a
text whose newline is refused runs into the event after it.

## Main definitions

* `openStep`: A step while the FIFO is open for reading.
* `Framed`: Every call contributed its whole line or nothing.
* `Accounted`: The bytes that reached the FIFO are those contributions.
* `Uniform`: The two writes of an event turn out alike.
* `Lines`: The FIFO was given whole lines only.

## Theorems

* `accounted_moves`: Every step accounts for the bytes it adds.
* `framed_moves`: A step keeps the framing exactly when it is uniform.
* `lines_of_framed`: Framed contributions are a sequence of whole lines.
* `lines_iff_uniform`: The FIFO is given whole lines only exactly when all
  steps are uniform.
* `newline_refused`: A full pipe takes a text and refuses its newline.
-/

namespace Isolyx

namespace EventPipe

variable {capacity pipeBuf : Nat}

/-- A step while the FIFO is open for reading. -/
def openStep (capacity pipeBuf : Nat) (s : State) (a : Action) : Option State :=
  if 0 < s.fifo.readers then step capacity pipeBuf s a else none

theorem openStep_eq_some {s t : State} {a : Action} : openStep capacity pipeBuf s a = some t ↔
    0 < s.fifo.readers ∧ step capacity pipeBuf s a = some t := by
  rw [openStep, Option.ite_none_right_eq_some]

/-- What the call under way has put into the FIFO, its newline not written yet. -/
def contributed : Writer → Bytes
  | .wroteData e accepted => (data e).take accepted
  | .idle | .opened _ | .wroteNewline | .dead => []

/-- The bytes that reached the FIFO are what the calls contributed, in order,
    and no write was taken beyond its end. -/
structure Accounted (s : State) : Prop where
  reached : s.reached = s.calls.flatMap Prod.snd ++ contributed s.writer
  accepted : ∀ e k, s.writer = .wroteData e k → k ≤ (data e).length

/-- Every call whose writes are over contributed its whole line or nothing. -/
def Framed (s : State) : Prop := ∀ c ∈ s.calls, c.2 = [] ∨ c.2 = line c.1

/-- The two writes of an event are both taken whole or both refused. -/
def Uniform (s : State) : Action → Prop
  | .writeNewline k => ∀ e accepted, s.writer = .wroteData e accepted →
      (accepted = (data e).length ∧ k = 1) ∨ (accepted = 0 ∧ k = 0)
  | _ => True

theorem data_ne_nil (e : Event) : data e ≠ [] := by
  rcases e.text_head with ⟨l, hl⟩
  rw [data, hl]
  exact List.cons_ne_nil _ _

/-- Every step accounts for the bytes it adds. -/
theorem accounted_moves {s t : State} {a : Action} (hs : Accounted s)
    (h : Moves capacity pipeBuf s a t) : Accounted t := by
  have hreached := hs.reached
  cases h with
  | openFails e hw hr =>
      refine ⟨?_, hs.accepted⟩
      rw [hw] at hreached
      simp only [List.flatMap_append, List.flatMap_cons, List.flatMap_nil, List.append_nil,
        hreached, hw]
  | opens e hw hr =>
      refine ⟨?_, fun e' k h => absurd h (by simp only [reduceCtorEq, not_false_eq_true])⟩
      rw [hw] at hreached
      exact hreached
  | textKills k e hw hr =>
      refine ⟨?_, fun e' k h => absurd h (by simp only [die, reduceCtorEq, not_false_eq_true])⟩
      rw [hw] at hreached
      simp only [die, List.flatMap_append, List.flatMap_cons, List.flatMap_nil, List.append_nil,
        hreached, contributed]
  | textTaken k e hw hr hk =>
      refine ⟨?_, fun e' k' h => ?_⟩
      · rw [hw, contributed, List.append_nil] at hreached
        simp only [take, hreached, contributed]
      · rw [Writer.wroteData.injEq] at h
        exact h.1 ▸ h.2 ▸ hk.1
  | newlineKills k e accepted hw hr =>
      refine ⟨?_, fun e' k h => absurd h (by simp only [die, reduceCtorEq, not_false_eq_true])⟩
      rw [hw] at hreached
      simp only [die, List.flatMap_append, List.flatMap_cons, List.flatMap_nil, List.append_nil,
        hreached, contributed]
  | newlineTaken k e accepted hw hr hk =>
      refine ⟨?_, fun e' k h => absurd h (by simp only [reduceCtorEq, not_false_eq_true])⟩
      rw [hw] at hreached
      simp only [take, List.flatMap_append, List.flatMap_cons, List.flatMap_nil, List.append_nil,
        hreached, contributed, List.append_assoc]
  | writerCloses hw =>
      refine ⟨?_, fun e' k h => absurd h (by simp only [reduceCtorEq, not_false_eq_true])⟩
      rw [hw] at hreached
      exact hreached
  | readerOpens hr => exact ⟨hreached, hs.accepted⟩
  | readerOpened hr => exact ⟨hreached, hs.accepted⟩
  | reads k hr hk => exact ⟨hreached, hs.accepted⟩
  | readsEof hr heof => exact ⟨hreached, hs.accepted⟩
  | readerCloses hr => exact ⟨hreached, hs.accepted⟩
  | crashes hr => exact ⟨hreached, hs.accepted⟩

/-- The contribution of two writes is a line or nothing exactly when both were
    taken whole or both were refused. -/
theorem contribution_iff (e : Event) {accepted k : Nat} (ha : accepted ≤ (data e).length)
    (hk : k ≤ 1) :
    ((data e).take accepted ++ [newline].take k = [] ∨
      (data e).take accepted ++ [newline].take k = line e) ↔
    (accepted = (data e).length ∧ k = 1) ∨ (accepted = 0 ∧ k = 0) := by
  -- A text is not empty, so the lengths alone tell the four outcomes apart.
  have hpos := List.length_pos_iff.mpr (data_ne_nil e)
  constructor
  · rintro (h | h)
    · have hlen := congrArg List.length h
      simp only [List.length_append, List.length_take, List.length_singleton,
        List.length_nil] at hlen
      omega
    · have hlen := congrArg List.length h
      simp only [line, List.length_append, List.length_take, List.length_singleton] at hlen
      omega
  · rintro (⟨rfl, rfl⟩ | ⟨rfl, rfl⟩)
    · exact Or.inr (by rw [List.take_length, line]; rfl)
    · exact Or.inl rfl

theorem framed_snoc {s : State} {e : Event} {b : Bytes} {calls : List (Event × Bytes)}
    (hf : Framed s) (hcalls : calls = s.calls ++ [(e, b)]) :
    (∀ c ∈ calls, c.2 = [] ∨ c.2 = line c.1) ↔ b = [] ∨ b = line e := by
  constructor
  · intro h
    exact h (e, b) (by rw [hcalls]; exact List.mem_append_right _ List.mem_cons_self)
  · intro h c hc
    rw [hcalls] at hc
    rcases List.mem_append.mp hc with hc | hc
    · exact hf c hc
    · rw [List.mem_singleton.mp hc]
      exact h

/-- While the FIFO is open for reading, a step keeps the framing exactly when
    it is uniform. -/
theorem framed_moves {s t : State} {a : Action} (ho : 0 < s.fifo.readers) (hs : Accounted s)
    (hf : Framed s) (h : Moves capacity pipeBuf s a t) : Framed t ↔ Uniform s a := by
  cases h with
  -- With the FIFO open for reading, neither `open` nor a write finds it without a reader.
  | openFails e hw hr => omega
  | textKills k e hw hr => omega
  | newlineKills k e accepted hw hr => omega
  | newlineTaken k e accepted hw hr hk =>
      -- The one step that completes a contribution.
      have hcontribution := contribution_iff e (hs.accepted e accepted hw) hk.1
      refine (framed_snoc hf rfl).trans (hcontribution.trans ?_)
      constructor
      · intro h e' accepted' hw'
        rw [hw, Writer.wroteData.injEq] at hw'
        exact hw'.1 ▸ hw'.2 ▸ h
      · exact fun h => h e accepted hw
  | opens e hw hr => exact iff_of_true hf trivial
  | textTaken k e hw hr hk => exact iff_of_true hf trivial
  | writerCloses hw => exact iff_of_true hf trivial
  | readerOpens hr => exact iff_of_true hf trivial
  | readerOpened hr => exact iff_of_true hf trivial
  | reads k hr hk => exact iff_of_true hf trivial
  | readsEof hr heof => exact iff_of_true hf trivial
  | readerCloses hr => exact iff_of_true hf trivial
  | crashes hr => exact iff_of_true hf trivial

/-- The bytes that reached the FIFO are whole lines, followed by what the call
    under way has put there, and each call contributed its line or nothing. -/
structure Lines (s : State) : Prop where
  framed : Framed s
  reached : ∃ es : List Event, es.Sublist (s.calls.map Prod.fst) ∧
    s.reached = es.flatMap line ++ contributed s.writer

theorem flatMap_of_framed (calls : List (Event × Bytes))
    (h : ∀ c ∈ calls, c.2 = [] ∨ c.2 = line c.1) :
    ∃ es : List Event, es.Sublist (calls.map Prod.fst) ∧
      calls.flatMap Prod.snd = es.flatMap line := by
  induction calls with
  | nil => exact ⟨[], List.Sublist.slnil, rfl⟩
  | cons c calls ih =>
      rcases ih fun d hd => h d (List.mem_cons_of_mem c hd) with ⟨es, hsub, hes⟩
      rw [List.flatMap_cons, hes]
      -- A call that contributed nothing leaves no trace in the bytes.
      rcases h c List.mem_cons_self with hc | hc
      · exact ⟨es, hsub.cons c.1, by rw [hc, List.nil_append]⟩
      · exact ⟨c.1 :: es, hsub.cons_cons c.1, by rw [hc, List.flatMap_cons]⟩

/-- Framed contributions are whole lines, in the order of their calls. -/
theorem lines_of_framed {s : State} (ha : Accounted s) (hf : Framed s) : Lines s := by
  rcases flatMap_of_framed s.calls hf with ⟨es, hsub, hes⟩
  exact ⟨hf, es, hsub, by rw [ha.reached, hes]⟩

theorem openStep_moves {s t : State} {a : Action} (h : openStep capacity pipeBuf s a = some t) :
    0 < s.fifo.readers ∧ Moves capacity pipeBuf s a t := by
  rcases openStep_eq_some.mp h with ⟨ho, hstep⟩
  exact ⟨ho, moves_of_step hstep⟩

theorem lines_step {s t : State} {a : Action} (ha : Accounted s) (hl : Lines s)
    (h : openStep capacity pipeBuf s a = some t) : Lines t ↔ Uniform s a := by
  rcases openStep_moves h with ⟨ho, hm⟩
  rw [← framed_moves ho ha hl.framed hm]
  exact ⟨fun h => h.framed, lines_of_framed (accounted_moves ha hm)⟩

theorem accounted_listening : Accounted listening :=
  ⟨rfl, fun _ _ h => absurd h (by simp only [listening, init, reduceCtorEq, not_false_eq_true])⟩

theorem lines_listening : Lines listening :=
  lines_of_framed accounted_listening fun _ h => absurd h List.not_mem_nil

/-- For every pipe, every sequence of results and every outcome of each write,
    with the FIFO open for reading throughout: the FIFO is given whole lines
    only, each call of `onResult` contributing its line or nothing, if and only
    if the two writes of every event are both taken whole or both refused. -/
theorem lines_iff_uniform (capacity pipeBuf : Nat) (as : List Action) :
    Lts.Always (openStep capacity pipeBuf) Lines listening as ↔
      Lts.Along (openStep capacity pipeBuf) Uniform listening as :=
  Lts.always_iff_along (fun _ _ _ ha _ h => accounted_moves ha (openStep_moves h).2)
    (fun _ _ _ ha hl h => lines_step ha hl h) as accounted_listening lines_listening

/-- A pipe that has room for the text and no more takes it and refuses its
    newline. -/
theorem newline_refused : ¬ ∀ (capacity pipeBuf : Nat) (as : List Action),
    Lts.Always (openStep capacity pipeBuf) Lines listening as := by
  intro hall
  have hrun : ∃ t, Lts.run (openStep (data .quiet).length 4096) listening
      [.onResult .quiet, .writeData (data .quiet).length, .writeNewline 0] = some t ∧
      t.calls = [(.quiet, data .quiet)] := by
    simp [Lts.run, openStep, step, listening, init, Fifo.openWrite, Fifo.MayAccept, Fifo.write,
      Reader.meet, take]
  rcases hrun with ⟨t, hrun, hcalls⟩
  have hframed := (Lts.always_end (hall _ _ _) hrun).framed
  rw [Framed, hcalls] at hframed
  -- The text alone is neither nothing nor a line.
  rcases hframed _ List.mem_cons_self with h | h
  · exact data_ne_nil .quiet h
  · have hlen := congrArg List.length h
    simp only [line, List.length_append, List.length_singleton] at hlen
    omega

end EventPipe

end Isolyx
