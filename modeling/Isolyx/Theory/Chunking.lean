import Isolyx.Core.Event
import Isolyx.Core.Reader

/-!
# Where the Reader's Chunks Are Cut

The stream of events is one compact text after the other, each followed by a
newline, and the handler sees it in chunks. Whether a chunk ends between two
lines or right before a newline makes no difference to it: the newline that
comes late is a blank piece. A chunk that ends strictly inside a text hands the
handler a proper beginning of a JSON object, which is no JSON text, and since
nothing is carried over to the next chunk the event is lost and reported.

So the events emitted are exactly those of the stream, with nothing reported,
if and only if no chunk ends strictly inside a text. The proof follows the
stream chunk by chunk. Where it stands between chunks is a remaining list of
events, with or without the newline of the event before it (`rest`), and
`consume` says what one chunk does from such a place.

## Main definitions

* `stream`: The characters of a list of events.
* `Inside`: A beginning of the stream ends strictly inside a text.
* `Emits`: The handler emitted exactly the events, and reported nothing.

## Theorems

* `onLine_event`: A whole line is emitted.
* `onLine_fragment`: A proper beginning of a line is reported.
* `consume`: What one chunk does.
* `run_emits_iff`: The induction over the chunks.
* `emits_iff_no_cut_inside`: Events survive exactly the cuts outside texts.
* `cut_inside_loses_event`: A cut inside a text loses the event.
-/

namespace Isolyx

namespace Reader

/-- The characters of a list of events, one line each. -/
def stream (es : List Event) : List Char := es.flatMap fun e => e.text ++ ['\n']

/-- The handler emitted exactly the events, in order, and reported nothing. -/
structure Emits (s t : State) (es : List Event) : Prop where
  emitted : t.emitted = s.emitted ++ es.map Event.value
  failures : t.failures = s.failures

/-- The beginning `p` of the stream ends strictly inside the text of an event. -/
def Inside (es : List Event) (p : List Char) : Prop :=
  ∃ done e rest f t, es = done ++ e :: rest ∧ e.text = f ++ t ∧ f ≠ [] ∧ t ≠ [] ∧
    p = stream done ++ f

/-! ## The stream -/

theorem stream_cons (e : Event) (es : List Event) :
    stream (e :: es) = e.text ++ '\n' :: stream es := by
  rw [stream, List.flatMap_cons, List.append_assoc, List.singleton_append]
  rfl

theorem stream_append (es fs : List Event) : stream (es ++ fs) = stream es ++ stream fs :=
  List.flatMap_append

/-! ## One line -/

/-- Looking up a request never throws: the command line of an event is a string. -/
theorem findPending_event (e : Event) (pending : List (List Char)) :
    ∃ r, findPending e.value pending = some r := by
  have hstring : commandLine e.value = some (some (.string e.commandLine)) := by
    rw [Event.value, Event.members, commandLine]
    rfl
  induction pending with
  | nil => exact ⟨none, rfl⟩
  | cons uuid rest ih =>
      rw [findPending]
      simp only [matchesUuid, hstring]
      cases !e.commandLine.isEmpty && includes e.commandLine uuid with
      | false => exact ih
      | true => exact ⟨some uuid, rfl⟩

theorem not_blank {l : List Char} (h : ∃ r, l = '{' :: r) : ¬ l.all isTrimmed = true := by
  rcases h with ⟨r, rfl⟩
  rw [List.all_cons, Bool.and_eq_true]
  exact fun h => absurd h.1 (by decide)

/-- A whole line is emitted. -/
theorem onLine_event (s : State) (e : Event) : Emits s (onLine s e.text) [e] := by
  rcases findPending_event e s.pendingRequests with ⟨r, hr⟩
  have hhead : ∃ r, e.text = '{' :: r := e.text_head.imp' _ fun _ h => h
  rw [onLine, if_neg (not_blank hhead), Event.text, JsonText.parse_print]
  simp only [hr]
  -- Whether a request is answered or not, the event was emitted before that.
  cases r with
  | none => exact ⟨rfl, rfl⟩
  | some uuid => exact ⟨rfl, rfl⟩

theorem onLine_nil (s : State) : onLine s [] = s := rfl

/-- A proper beginning of a line is no JSON text, and is reported. -/
theorem onLine_fragment (s : State) {e : Event} {f t : List Char} (h : e.text = f ++ t)
    (hf : f ≠ []) (ht : t ≠ []) : (onLine s f).failures = s.failures ++ [f] := by
  have hhead : ∃ r, f = '{' :: r := by
    rcases e.text_head with ⟨l, hl⟩
    obtain ⟨c, r, rfl⟩ := List.exists_cons_of_ne_nil hf
    rw [hl, List.cons_append, List.cons.injEq] at h
    exact ⟨r, by rw [h.1]⟩
  rw [onLine, if_neg (not_blank hhead), JsonText.parse_prefix e.members f t h hf ht]

theorem onLine_failures (s : State) (line : List Char) :
    s.failures.length ≤ (onLine s line).failures.length := by
  unfold onLine
  -- A blank piece, one that is no JSON, and an event whose lookup throws or not.
  split
  · exact Nat.le_refl _
  · split
    · simp only [List.length_append]
      omega
    · dsimp only
      split
      · simp only [List.length_append]
        omega
      · exact Nat.le_refl _
      · exact Nat.le_refl _

/-! ## One chunk -/

theorem onData_line (s : State) {l : List Char} (c : List Char) (h : '\n' ∉ l) :
    onData s (l ++ '\n' :: c) = onData (onLine s l) c := by
  rw [onData, List.splitOn_append_cons_self_of_not_mem h, List.foldl_cons]
  rfl

theorem onData_last (s : State) {c : List Char} (h : '\n' ∉ c) : onData s c = onLine s c := by
  rw [onData, List.splitOn_eq_singleton h]
  rfl

theorem onData_failures (s : State) (c : List Char) :
    s.failures.length ≤ (onData s c).failures.length := by
  unfold onData
  generalize c.splitOn '\n' = lines
  induction lines generalizing s with
  | nil => exact Nat.le_refl _
  | cons l ls ih => exact Nat.le_trans (onLine_failures s l) (ih (onLine s l))

theorem Emits.trans {s t u : State} {es fs : List Event} (h : Emits s t es) (h' : Emits t u fs) :
    Emits s u (es ++ fs) :=
  ⟨by rw [h'.emitted, h.emitted, List.map_append, List.append_assoc],
    h'.failures.trans h.failures⟩

theorem Emits.refl (s : State) : Emits s s [] := ⟨by rw [List.map_nil, List.append_nil], rfl⟩

/-- Whole lines are emitted before the rest of a chunk is looked at. -/
theorem onData_stream (s : State) (es : List Event) (c : List Char) :
    ∃ s', Emits s s' es ∧ onData s (stream es ++ c) = onData s' c := by
  induction es generalizing s with
  | nil => exact ⟨s, Emits.refl s, rfl⟩
  | cons e es ih =>
      rcases ih (onLine s e.text) with ⟨s', hs', hdata⟩
      refine ⟨s', (onLine_event s e).trans hs', ?_⟩
      rw [stream_cons, List.append_assoc, List.cons_append, onData_line s _ e.text_no_newline,
        hdata]

/-- The ways a beginning of the stream can end. -/
inductive Cut (es : List Event) (c r : List Char) : Prop where
  | betweenLines (done rest : List Event) (hes : es = done ++ rest) (hc : c = stream done)
      (hr : r = stream rest)
  | beforeNewline (done : List Event) (e : Event) (rest : List Event)
      (hes : es = done ++ e :: rest) (hc : c = stream done ++ e.text)
      (hr : r = '\n' :: stream rest)
  | inside (done : List Event) (e : Event) (rest : List Event) (f t : List Char)
      (hes : es = done ++ e :: rest) (he : e.text = f ++ t) (hf : f ≠ []) (ht : t ≠ [])
      (hc : c = stream done ++ f)

theorem cut (es : List Event) (c r : List Char) (h : c ++ r = stream es) : Cut es c r := by
  induction es generalizing c with
  | nil =>
      rcases List.append_eq_nil_iff.mp h with ⟨rfl, rfl⟩
      exact .betweenLines [] [] rfl rfl rfl
  | cons e es ih =>
      rw [stream_cons] at h
      -- The beginning ends within the first text, or goes on after it.
      rcases List.append_eq_append_iff.mp h with ⟨t, he, hr⟩ | ⟨c', hc, hr⟩
      · by_cases hc : c = []
        · subst hc
          exact .betweenLines [] (e :: es) rfl rfl (by rw [stream_cons]; exact h)
        · by_cases ht : t = []
          · rw [ht, List.append_nil] at he
            exact .beforeNewline [] e es rfl he.symm (by rw [hr, ht, List.nil_append])
          · exact .inside [] e es c t rfl he hc ht rfl
      -- It goes on with the newline, if it goes on at all, and then it is the same question again.
      · cases c' with
        | nil =>
            rw [List.append_nil] at hc
            exact .beforeNewline [] e es rfl hc hr.symm
        | cons d c' =>
            rw [List.cons_append, List.cons.injEq] at hr
            rcases hr with ⟨rfl, hr⟩
            have hc' : c = stream [e] ++ c' := by
              rw [hc, stream_cons, List.append_assoc]
              rfl
            rcases ih c' hr.symm with ⟨done, rest, rfl, rfl, hr'⟩ |
              ⟨done, e', rest, rfl, rfl, hr'⟩ | ⟨done, e', rest, f, t, rfl, he, hf, ht, rfl⟩
            · exact .betweenLines (e :: done) rest rfl (by rw [hc', ← stream_append]; rfl) hr'
            · exact .beforeNewline (e :: done) e' rest rfl
                (by rw [hc', ← List.append_assoc, ← stream_append]; rfl) hr'
            · exact .inside (e :: done) e' rest f t rfl he hf ht
                (by rw [hc', ← List.append_assoc, ← stream_append]; rfl)

/-! ## The place between two chunks -/

/-- What remains of the stream between two chunks: lines, and before them the
    newline of the event before if it is still to come. -/
def rest (late : Bool) (es : List Event) : List Char :=
  if late then '\n' :: stream es else stream es

/-- The beginning `p` of what remains ends strictly inside a text. -/
def InsideRest (late : Bool) (es : List Event) (p : List Char) : Prop :=
  if late then ∃ q, p = '\n' :: q ∧ Inside es q else Inside es p

/-- After a whole text only its newline may follow, and then the next line. -/
theorem inside_text (e : Event) (es : List Event) (q : List Char) :
    Inside (e :: es) (e.text ++ q) ↔ InsideRest true es q := by
  constructor
  · rintro ⟨done, e', rest, f, t, hes, he, hf, ht, hp⟩
    cases done with
    | nil =>
        -- A text cannot be cut strictly inside when all of it has been read.
        exfalso
        rw [List.nil_append, List.cons.injEq] at hes
        rw [hes.1, he] at hp
        have hlen := congrArg List.length hp
        have htpos := List.length_pos_iff.mpr ht
        simp only [stream, List.flatMap_nil, List.nil_append, List.length_append] at hlen
        omega
    | cons d done =>
        rw [List.cons_append, List.cons.injEq] at hes
        rw [stream_cons, ← hes.1, List.append_assoc, List.cons_append] at hp
        exact ⟨_, List.append_cancel_left hp, done, e', rest, f, t, hes.2, he, hf, ht, rfl⟩
  · rintro ⟨q, rfl, done, e', rest, f, t, rfl, he, hf, ht, rfl⟩
    refine ⟨e :: done, e', rest, f, t, rfl, he, hf, ht, ?_⟩
    rw [stream_cons, List.append_assoc, List.cons_append]

theorem inside_newline (es : List Event) (q : List Char) :
    InsideRest true es ('\n' :: q) ↔ Inside es q := by
  constructor
  · rintro ⟨q', hq, hin⟩
    rw [List.cons.injEq] at hq
    rw [hq.2]
    exact hin
  · exact fun hin => ⟨q, rfl, hin⟩

/-- A beginning of whole lines leaves the question to the lines after it. -/
theorem inside_stream (done es : List Event) (q : List Char) :
    Inside (done ++ es) (stream done ++ q) ↔ Inside es q := by
  induction done with
  | nil => exact Iff.rfl
  | cons e done ih =>
      rw [stream_cons, List.append_assoc, List.cons_append, List.cons_append, inside_text,
        inside_newline, ih]

/-! ## What one chunk does -/

/-- A chunk either stops outside every text, having emitted what it covers and
    leaving the rest of the stream, or stops inside one and reports it. -/
inductive Consumes (late : Bool) (es : List Event) (c r : List Char) : Prop where
  | outside (done left : List Event) (late' : Bool) (hes : es = done ++ left)
      (hr : r = rest late' left) (hemits : ∀ s, Emits s (onData s c) done)
      (hinside : ∀ q, InsideRest late es (c ++ q) ↔ InsideRest late' left q)
  | inside (hinside : InsideRest late es c)
      (hfails : ∀ s, s.failures.length < (onData s c).failures.length)

theorem onData_lines (s : State) (done : List Event) : Emits s (onData s (stream done)) done := by
  rcases onData_stream s done [] with ⟨s', hs', hdata⟩
  rw [List.append_nil] at hdata
  rw [hdata]
  exact hs'

theorem consume_line (es : List Event) (c r : List Char) (h : c ++ r = stream es) :
    Consumes false es c r := by
  -- The three ways a chunk can end: the last of them is the one that fails.
  rcases cut es c r h with ⟨done, left, rfl, rfl, hr⟩ | ⟨done, e, left, rfl, rfl, hr⟩ |
    ⟨done, e, left, f, t, rfl, he, hf, ht, rfl⟩
  · exact .outside done left false rfl hr (fun s => onData_lines s done)
      (fun q => inside_stream done left q)
  · refine .outside (done ++ [e]) left true ?_ hr (fun s => ?_) (fun q => ?_)
    · rw [List.append_assoc, List.singleton_append]
    · rcases onData_stream s done e.text with ⟨s', hs', hdata⟩
      rw [hdata, onData_last s' e.text_no_newline]
      exact hs'.trans (onLine_event s' e)
    · rw [List.append_assoc]
      exact (inside_stream done (e :: left) (e.text ++ q)).trans (inside_text e left q)
  · have hnewline : '\n' ∉ f := fun hmem =>
      e.text_no_newline (he ▸ List.mem_append_left t hmem)
    refine .inside ⟨done, e, left, f, t, rfl, he, hf, ht, rfl⟩ (fun s => ?_)
    rcases onData_stream s done f with ⟨s', hs', hdata⟩
    rw [hdata, onData_last s' hnewline, onLine_fragment s' he hf ht, hs'.failures,
      List.length_append]
    exact Nat.lt_succ_self _

theorem consume (late : Bool) (es : List Event) (c r : List Char) (h : c ++ r = rest late es) :
    Consumes late es c r := by
  cases late with
  | false => exact consume_line es c r h
  | true =>
      cases c with
      -- An empty chunk leaves the newline to come.
      | nil => exact .outside [] es true rfl h Emits.refl (fun q => Iff.rfl)
      | cons d c =>
          rw [rest, if_pos rfl, List.cons_append, List.cons.injEq] at h
          rcases h with ⟨rfl, h⟩
          -- the newline that comes late is a blank piece of its own
          have hblank : ∀ s, onData s ('\n' :: c) = onData s c := fun s => by
            have hline := onData_line s c (List.not_mem_nil (a := '\n'))
            rwa [List.nil_append, onLine_nil] at hline
          rcases consume_line es c r h with ⟨done, left, late', hes, hr, hemits, hinside⟩ |
            ⟨hinside, hfails⟩
          · refine .outside done left late' hes hr (fun s => ?_) (fun q => ?_)
            · rw [hblank]
              exact hemits s
            · exact (inside_newline es (c ++ q)).trans (hinside q)
          · refine .inside ((inside_newline es c).mpr hinside) (fun s => ?_)
            rw [hblank]
            exact hfails s

/-! ## All chunks -/

theorem run_failures (s : State) (inputs : List Input) :
    s.failures.length ≤ (run s inputs).failures.length := by
  induction inputs generalizing s with
  | nil => exact Nat.le_refl _
  | cons i inputs ih => cases i with
    | chunk text => exact Nat.le_trans (onData_failures s text) (ih (onData s text))
    | submit uuid => exact ih (step s (.submit uuid))

/-- No chunk of the inputs ends strictly inside a text of what remains. -/
def CleanRest (late : Bool) (es : List Event) (inputs : List Input) : Prop :=
  ∀ before after, inputs = before ++ after → ¬ InsideRest late es (before.flatMap Input.text)

theorem not_inside_nil (late : Bool) (es : List Event) : ¬ InsideRest late es [] := by
  cases late with
  | false =>
      rintro ⟨done, e, rest, f, t, _, _, hf, _, hp⟩
      exact hf (List.append_eq_nil_iff.mp hp.symm).2
  | true =>
      rintro ⟨q, hq, _⟩
      exact absurd hq (by simp only [reduceCtorEq, not_false_eq_true])

/-- Only the cuts after a first input remain to be looked at. -/
theorem cleanRest_cons (late : Bool) (es : List Event) (i : Input) (inputs : List Input) :
    CleanRest late es (i :: inputs) ↔ ∀ before after, inputs = before ++ after →
      ¬ InsideRest late es (i.text ++ before.flatMap Input.text) := by
  constructor
  · intro h before after hsplit
    have := h (i :: before) after (by rw [hsplit, List.cons_append])
    rwa [List.flatMap_cons] at this
  · intro h before after hsplit
    cases before with
    -- The cut before everything is no cut inside.
    | nil => exact not_inside_nil late es
    | cons j before =>
        rw [List.cons_append, List.cons.injEq] at hsplit
        rw [List.flatMap_cons, ← hsplit.1]
        exact h before after hsplit.2

theorem emits_append {s t u : State} {es fs : List Event} (h : Emits s t es) :
    Emits s u (es ++ fs) ↔ Emits t u fs := by
  constructor
  · intro hu
    have hemitted := hu.emitted
    rw [List.map_append, ← List.append_assoc, ← h.emitted] at hemitted
    exact ⟨hemitted, hu.failures.trans h.failures.symm⟩
  · exact h.trans

/-- The events that remain are emitted exactly when no chunk ends inside a text. -/
theorem run_emits_iff (late : Bool) (es : List Event) (inputs : List Input) (s : State)
    (h : inputs.flatMap Input.text = rest late es) :
    Emits s (run s inputs) es ↔ CleanRest late es inputs := by
  -- On the inputs; `late` and `es` are the place the stream has reached.
  induction inputs generalizing late es s with
  | nil =>
      -- Nothing is left to read, so nothing remained to be emitted.
      have hes : es = [] := by
        cases es with
        | nil => rfl
        | cons e es =>
            have hlen := congrArg List.length h
            cases late <;> simp only [rest, stream_cons, Bool.false_eq_true, if_false, if_true,
              List.flatMap_nil, List.length_nil, List.length_cons, List.length_append] at hlen <;>
              omega
      subst hes
      refine ⟨fun _ before after hsplit => ?_, fun _ => Emits.refl s⟩
      rw [(List.append_eq_nil_iff.mp hsplit.symm).1]
      exact not_inside_nil late []
  | cons i inputs ih =>
      rw [List.flatMap_cons] at h
      rw [cleanRest_cons]
      cases i with
      | submit uuid =>
          have hstep : Emits s (step s (.submit uuid)) [] :=
            ⟨by rw [List.map_nil, List.append_nil]; rfl, rfl⟩
          exact (emits_append hstep).trans (ih late es _ h)
      | chunk c =>
          rcases consume late es c _ h with ⟨done, left, late', rfl, hr, hemits, hinside⟩ |
            ⟨hinside, hfails⟩
          · refine (emits_append (hemits s)).trans ((ih late' left _ hr).trans ?_)
            refine forall_congr' fun before => forall_congr' fun after => ?_
            refine imp_congr_right fun _ => ?_
            exact not_congr (hinside _).symm
          · constructor
            · intro hemits
              -- What is reported stays reported, so the run reported something.
              have hmono := run_failures (onData s c) inputs
              have hsame : (run (onData s c) inputs).failures = s.failures := hemits.failures
              have hmore := hfails s
              rw [hsame] at hmono
              omega
            · intro hclean
              have := hclean [] inputs rfl
              rw [List.flatMap_nil, List.append_nil] at this
              exact absurd hinside this

/-- For every list of events and every way to cut their stream into chunks,
    with requests arriving in between: exactly those events are emitted, in
    order and with nothing reported, if and only if no chunk ends strictly
    inside the text of an event. -/
theorem emits_iff_no_cut_inside (s : State) (es : List Event) (inputs : List Input)
    (h : inputs.flatMap Input.text = stream es) :
    Emits s (run s inputs) es ↔ ∀ before after, inputs = before ++ after →
      ¬ Inside es (before.flatMap Input.text) :=
  run_emits_iff false es inputs s h

/-- Two lines that arrive in one chunk, the last newline on its own. -/
theorem emits_two_lines : [Input.chunk (stream [.quiet] ++ Event.quiet.text),
    .chunk ['\n']].flatMap Input.text = stream [Event.quiet, Event.quiet] ∧
    (Emits {} (run {} [Input.chunk (stream [Event.quiet] ++ Event.quiet.text), .chunk ['\n']])
      [Event.quiet, Event.quiet] ↔ ∀ before after,
        [Input.chunk (stream [Event.quiet] ++ Event.quiet.text), .chunk ['\n']] = before ++ after →
          ¬ Inside [Event.quiet, Event.quiet] (before.flatMap Input.text)) := by
  have h : [Input.chunk (stream [Event.quiet] ++ Event.quiet.text),
      .chunk ['\n']].flatMap Input.text = stream [Event.quiet, Event.quiet] := by
    simp only [List.flatMap_cons, List.flatMap_nil, Input.text, stream_cons, List.append_assoc,
      List.cons_append, List.append_nil]
    rfl
  exact ⟨h, emits_iff_no_cut_inside {} _ _ h⟩

/-- A cut after the first character of a line loses the event. -/
theorem cut_inside_loses_event : ¬ ∀ (s : State) (es : List Event) (inputs : List Input),
    inputs.flatMap Input.text = stream es → Emits s (run s inputs) es := by
  intro hall
  rcases Event.quiet.text_head with ⟨l, hl⟩
  have hcut : [Input.chunk ['{'], .chunk ('"' :: l ++ ['\n'])].flatMap Input.text =
      stream [Event.quiet] := by
    rw [stream_cons, hl]
    simp only [List.flatMap_cons, List.flatMap_nil, Input.text, List.cons_append,
      List.nil_append, List.append_nil]
    rfl
  have hclean := (run_emits_iff false _ _ _ hcut).mp (hall {} _ _ hcut)
  exact hclean [.chunk ['{']] [.chunk ('"' :: l ++ ['\n'])] rfl
    ⟨[], Event.quiet, [], ['{'], '"' :: l, rfl, hl, by decide, by simp only [ne_eq, reduceCtorEq,
      not_false_eq_true], rfl⟩

end Reader

end Isolyx
