import Isolyx.Core.Collector
import Isolyx.Core.Parser
import Isolyx.Theory.Serialization

/-!
# When an Iteration Completes

An iteration of `workerLoop` completes when every registered observer has
received the result, the promise is set and no exception leaves the loop. The
only thing that can stop it is the dashboard's serializer, and the strings it
is given are the name of the executable and what the job left on its two
outputs. `parseLine` accepts every non-empty word without whitespace as an
executable (`parseLine_executable`), valid or not, and an output is whatever
the job wrote, so none of the three is checked before.

## Main definitions

* `Completes`: The iteration reached every observer and set the promise.

## Theorems

* `parseLine_executable`: Every word is an executable.
* `submitResult_thrown`: A round ends early exactly when an observer throws.
* `completes_iff`: An iteration completes exactly when no observer throws.
* `completes_iff_valid`: Exactly when the job's three strings are valid.
* `iteration_completes_iff`: The same for every line a job is typed in as.
* `binary_output_escapes`: An output that is not UTF-8 leaves `workerLoop` as
  an exception.
-/

namespace Isolyx

namespace Parser

theorem wordsFrom_word (w s : Bytes) (h : ∀ b ∈ s, isSpace b = false) :
    wordsFrom w s = if (w ++ s).isEmpty then [] else [w ++ s] := by
  have hend := wordsFrom_append w [] h
  rw [List.append_nil] at hend
  rw [hend, wordsFrom]

/-- Every word is accepted as an executable, whatever its bytes are. -/
theorem parseLine_executable (w : Bytes) (hne : w ≠ []) (h : ∀ b ∈ w, isSpace b = false) :
    (parseLine w).executable = w := by
  have hw : words w = [w] := by
    rw [words, wordsFrom_word [] w h, List.nil_append, if_neg]
    intro hempty
    exact hne (List.isEmpty_iff.mp hempty)
  simp only [parseLine, hw, parseWords]

end Parser

namespace Collector

/-- A round ends early exactly when an observer throws. -/
theorem submitResult_thrown (r : JobResult) (os : List Observer) :
    (submitResult r os).thrown = none ↔ ∀ o ∈ os, (onResult r o).isOk = true := by
  induction os with
  | nil => exact ⟨fun _ o ho => absurd ho List.not_mem_nil, fun _ => rfl⟩
  | cons o os ih =>
      rw [submitResult, List.forall_mem_cons]
      cases onResult r o with
      -- the observers after this one are not called
      | error e => exact ⟨fun h => absurd h (Option.some_ne_none e),
          fun h => absurd h.1 Bool.false_ne_true⟩
      | ok out => exact ⟨fun h => ⟨rfl, ih.mp h⟩, fun h => ih.mpr h.2⟩

theorem submitResult_complete (r : JobResult) (os : List Observer)
    (h : (submitResult r os).thrown = none) :
    (submitResult r os).received.map Prod.fst = os := by
  induction os with
  | nil => rfl
  | cons o os ih =>
      rw [submitResult] at h ⊢
      cases ho : onResult r o with
      | error e => simp only [ho, reduceCtorEq] at h
      | ok out =>
          simp only [ho] at h
          simp only [List.map_cons, ih h]

/-- Every registered observer received the result, the promise is set if there
    is one, and no exception left `workerLoop`. -/
structure Completes (observers : List Observer) (job : Job) (it : Iteration) : Prop where
  received : it.received.map Prod.fst = observers
  promise : it.promiseValue.isSome = job.resultPromise.isSome
  escaped : it.escaped = none

/-- An iteration completes exactly when no observer throws. -/
theorem completes_iff (observers : List Observer) (job : Job) (res : ExecutionResult) :
    Completes observers job (finishIteration observers job res) ↔
      ∀ o ∈ observers, (onResult (jobResult job res) o).isOk = true := by
  rw [← submitResult_thrown, finishIteration]
  cases h : (submitResult (jobResult job res) observers).thrown with
  | some e =>
      exact ⟨fun hc => absurd hc.escaped (Option.some_ne_none e),
        fun hn => absurd hn (Option.some_ne_none e)⟩
  -- Nothing was thrown, so the round was whole and the promise is reached.
  | none =>
      exact ⟨fun _ => rfl, fun _ => ⟨submitResult_complete _ _ h, Option.isSome_map .., rfl⟩⟩

theorem dashboard_isOk (r : JobResult) (observers : List Observer) :
    (∀ o ∈ observers, (onResult r o).isOk = true) ↔
      (.dashboard ∈ observers → (Json.dump (eventObject r)).isOk = true) := by
  constructor
  · exact fun h hmem => h .dashboard hmem
  · intro h o ho
    cases o with
    | logging => rfl
    | dashboard => exact h ho

/-- An iteration completes exactly when no dashboard is registered or the
    three strings of the job are valid. -/
theorem completes_iff_valid (observers : List Observer) (job : Job) (res : ExecutionResult) :
    Completes observers job (finishIteration observers job res) ↔
      (.dashboard ∈ observers → Utf8.Valid job.cmd.executable ∧
        Utf8.Valid res.stdoutOut ∧ Utf8.Valid res.stderrOut) := by
  rw [completes_iff, dashboard_isOk]
  exact imp_congr_right fun _ => dump_eventObject_isOk _

/-- For every command line, job and final outcome, the iteration completes
    exactly when no dashboard is registered or the executable and both outputs
    are valid UTF-8. -/
theorem iteration_completes_iff (observers : List Observer) (input : Bytes) (job : Job)
    (res : ExecutionResult) :
    Completes observers { job with cmd := Parser.parseLine input }
        (finishIteration observers { job with cmd := Parser.parseLine input } res) ↔
      (.dashboard ∈ observers → Utf8.Valid (Parser.parseLine input).executable ∧
        Utf8.Valid res.stdoutOut ∧ Utf8.Valid res.stderrOut) :=
  completes_iff_valid observers { job with cmd := Parser.parseLine input } res

/-- Not every output can be told: one byte that is not UTF-8 is enough. -/
theorem binary_output_escapes : ¬ ∀ (observers : List Observer) (input : Bytes) (job : Job)
    (res : ExecutionResult),
    Completes observers { job with cmd := Parser.parseLine input }
      (finishIteration observers { job with cmd := Parser.parseLine input } res) := by
  intro h
  have hvalid := (completes_iff_valid _ _ _).mp (h [.logging, .dashboard] (ascii "/bin/cat image")
    { id := 1, cmd := {}, resultPromise := some 0 }
    { exitCode := 0, success := true, stdoutOut := [0xFF] })
  -- No encoding starts with the byte 0xFF.
  exact absurd (hvalid (by decide)).2.1 (by decide)

end Collector

end Isolyx
