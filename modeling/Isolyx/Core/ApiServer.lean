import Isolyx.Core.Event
import Isolyx.Core.Reader
import Isolyx.Library.Run

/-!
# The API Server's Event Loop

The handler of `POST /api/submit` and the reader of the event pipe, which share
one thread. The handler's calls block, so it is one turn of the event loop from
its begin to its end, whatever the engine does meanwhile: it makes a job id,
compiles the code, writes the job's line into the command pipe, closes it, and
then adds the id to the pending requests. The reader's handler takes one
complete line in a turn of its own.

A request without code changes nothing. One whose compilation fails, or that
cannot open or write the command pipe, is answered in the handler itself, and
no line was written: a line is shorter than what the pipe takes in one piece.
One whose pipe cannot be closed is answered so as well, but its line was
written, and its job runs although nobody waits for it.

The engine may finish a job as soon as its line is written, and its event may
be read in any later turn, before or after those of other jobs. Lines of jobs
submitted elsewhere may come at any time.

The state carries a history that no step but the choice of an id reads: the ids
made, the requests registered, those abandoned with their lines written, and the
jobs whose events were processed.

## Main definitions

* `IsJobId`: A string of the form of an id.
* `binPath`: The executable of a job, as the engine names it.
* `Turn`: Where the event loop is.
* `State`: The reader, the event loop and the lines on their way.
* `step`: The transition function.
* `Moves`: Its transitions, one by one.
* `init`: The server waits with some requests pending.
-/

namespace Isolyx

namespace ApiServer

open JsonText (Value)

/-- A hexadecimal digit or a dash. -/
def isIdChar (c : Char) : Bool :=
  c.isDigit || 'a' ≤ c && c ≤ 'f' || 'A' ≤ c && c ≤ 'F' || c = '-'

/-- The form of an id that `uuidv4` makes. -/
structure IsJobId (jobId : List Char) : Prop where
  length : jobId.length = 36
  chars : ∀ c ∈ jobId, isIdChar c = true

instance (jobId : List Char) : Decidable (IsJobId jobId) :=
  decidable_of_iff (jobId.length = 36 ∧ jobId.all isIdChar = true)
    ⟨fun h => ⟨h.1, List.all_eq_true.mp h.2⟩, fun h => ⟨h.length, List.all_eq_true.mpr h.chars⟩⟩

/-- The executable of the job's line, which its event has as its command line. -/
def binPath (jobId : List Char) : List Char := "/tmp/job_".toList ++ jobId ++ ".bin".toList

/-- Where the event loop is. -/
inductive Turn where
  | idle
  /-- In the submit handler, before the line is written. -/
  | submitting (jobId : List Char)
  /-- In the submit handler, the line written. -/
  | written (jobId : List Char)
  deriving DecidableEq, Repr

/-- A line on its way to the reader, and the request whose job it is about. -/
structure Line where
  text : List Char
  job : Option (List Char)

structure State where
  reader : Reader.State
  turn : Turn
  /-- The jobs whose lines are in the command pipe or at the engine. -/
  submitted : List (List Char)
  lines : List Line
  made : List (List Char)
  registered : List (List Char)
  /-- The requests answered in the handler whose lines were written. -/
  abandoned : List (List Char)
  processed : List (List Char)

inductive Action where
  /-- The submit handler is called and makes an id. -/
  | call (jobId : List Char)
  /-- It answers the request itself. -/
  | refuse
  | write
  /-- `closeSync` throws, and the handler answers the request itself. -/
  | closeFails
  /-- The pipe is closed and `pendingRequests.set` called, after which the
      handler returns. -/
  | register
  /-- The engine writes the event of a job. -/
  | finish (jobId : List Char) (event : Event)
  /-- A line comes that is about no job of these. -/
  | foreign (text : List Char)
  /-- The reader takes one of the lines. -/
  | receive (i : Nat)

def step (s : State) : Action → Option State
  | .call jobId =>
      if s.turn = .idle ∧ IsJobId jobId ∧ jobId ∉ s.made then
        some { s with turn := .submitting jobId, made := jobId :: s.made }
      else none
  | .refuse => match s.turn with
      | .submitting _ => some { s with turn := .idle }
      | _ => none
  | .write => match s.turn with
      | .submitting jobId => some { s with
          turn := .written jobId, submitted := jobId :: s.submitted }
      | _ => none
  | .closeFails => match s.turn with
      | .written jobId => some { s with turn := .idle, abandoned := jobId :: s.abandoned }
      | _ => none
  | .register => match s.turn with
      | .written jobId => some { s with
          turn := .idle
          reader := Reader.step s.reader (.submit jobId)
          registered := jobId :: s.registered }
      | _ => none
  | .finish jobId event =>
      if jobId ∈ s.submitted ∧ event.commandLine = binPath jobId then
        some { s with lines := s.lines ++ [⟨event.text, some jobId⟩] }
      else none
  | .foreign text => some { s with lines := s.lines ++ [⟨text, none⟩] }
  | .receive i =>
      if s.turn = .idle then
        match s.lines[i]? with
        | none => none
        | some line => some { s with
            reader := Reader.onLine s.reader line.text
            lines := s.lines.eraseIdx i
            processed := line.job.toList ++ s.processed }
      else none

/-- The transitions of `step`. -/
inductive Moves (s : State) : Action → State → Prop
  | calls (jobId : List Char) (ht : s.turn = .idle) (hid : IsJobId jobId)
      (hnew : jobId ∉ s.made) :
      Moves s (.call jobId) { s with turn := .submitting jobId, made := jobId :: s.made }
  | refuses (jobId : List Char) (ht : s.turn = .submitting jobId) :
      Moves s .refuse { s with turn := .idle }
  | writes (jobId : List Char) (ht : s.turn = .submitting jobId) :
      Moves s .write { s with turn := .written jobId, submitted := jobId :: s.submitted }
  | abandons (jobId : List Char) (ht : s.turn = .written jobId) :
      Moves s .closeFails { s with turn := .idle, abandoned := jobId :: s.abandoned }
  | registers (jobId : List Char) (ht : s.turn = .written jobId) :
      Moves s .register { s with
        turn := .idle
        reader := Reader.step s.reader (.submit jobId)
        registered := jobId :: s.registered }
  | finishes (jobId : List Char) (event : Event) (hjob : jobId ∈ s.submitted)
      (hline : event.commandLine = binPath jobId) :
      Moves s (.finish jobId event) { s with lines := s.lines ++ [⟨event.text, some jobId⟩] }
  | comes (text : List Char) :
      Moves s (.foreign text) { s with lines := s.lines ++ [⟨text, none⟩] }
  | receives (i : Nat) (line : Line) (ht : s.turn = .idle) (hl : s.lines[i]? = some line) :
      Moves s (.receive i) { s with
        reader := Reader.onLine s.reader line.text
        lines := s.lines.eraseIdx i
        processed := line.job.toList ++ s.processed }

theorem moves_of_step {s t : State} {a : Action} (h : step s a = some t) : Moves s a t := by
  cases a with
  | call jobId =>
      simp only [step, Option.ite_none_right_eq_some, Option.some.injEq] at h
      exact h.2 ▸ .calls jobId h.1.1 h.1.2.1 h.1.2.2
  | refuse =>
      cases ht : s.turn <;> simp only [step, ht, reduceCtorEq, Option.some.injEq] at h
      exact h ▸ .refuses _ ht
  | write =>
      cases ht : s.turn <;> simp only [step, ht, reduceCtorEq, Option.some.injEq] at h
      exact h ▸ .writes _ ht
  | closeFails =>
      cases ht : s.turn <;> simp only [step, ht, reduceCtorEq, Option.some.injEq] at h
      exact h ▸ .abandons _ ht
  | register =>
      cases ht : s.turn <;> simp only [step, ht, reduceCtorEq, Option.some.injEq] at h
      exact h ▸ .registers _ ht
  | finish jobId event =>
      simp only [step, Option.ite_none_right_eq_some, Option.some.injEq] at h
      exact h.2 ▸ .finishes jobId event h.1.1 h.1.2
  | foreign text =>
      simp only [step, Option.some.injEq] at h
      exact h ▸ .comes text
  | receive i =>
      simp only [step, Option.ite_none_right_eq_some] at h
      rcases h with ⟨ht, h⟩
      cases hl : s.lines[i]? with
      | none => simp only [hl, reduceCtorEq] at h
      | some line =>
          simp only [hl, Option.some.injEq] at h
          exact h ▸ .receives i line ht hl

/-- The event loop is idle, with requests pending. -/
def init (pending : List (List Char)) : State where
  reader := { pendingRequests := pending }
  turn := .idle
  submitted := []
  lines := []
  made := pending
  registered := pending
  abandoned := []
  processed := []

end ApiServer

end Isolyx
