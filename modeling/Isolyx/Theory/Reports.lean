import Isolyx.Theory.Atomicity

/-!
# The Reports Do Not Mix

What the observers put out when several workers have results to report at the
same moment. `ResultCollector::submitResult` holds its mutex while it calls
them, so the pieces of one result come one after the other, and those of the
next one when its report is over (`reporting_moves`).

So what the observers put on the standard output is a sequence of whole lines of
`LoggingObserver` and what they hand to the event FIFO a sequence of whole
events, each of them of one result, and both are in the order in which the
calls of `submitResult` return. Only the last one may still be incomplete, while
its report is under way or when an exception of `dump` ended the engine in the
middle of it. The shell prints to the same standard output without the mutex, and
what it prints is left out.

## Main definitions

* `puts`: The pieces of a result, up to an exception.
* `reported`: The result whose report a step completes.
* `output`: What one observer put out.
* `text`: What it puts out for a result.
* `Reporting`: What every step preserves.
* `Reports`: What the observers have put out.

## Theorems

* `output_puts`: The pieces of a result make up its text.
* `submitting_moves`: A worker that reports stays where it is until it is done.
* `reporting_moves`: A step keeps the reports apart.
* `reports_whole`: In every run, the reports are whole and in one order.
-/

namespace Isolyx

namespace Locks

open Pool (Worker setWorker notifyOne)
open Sections (Code Mutex)
open Collector (Observer loggingLine)

variable {n : Nat} {sched : Scheduler} {observers : List Observer} {s t : State n}

/-! ## The text of a report -/

/-- The pieces that are put out, up to where an observer throws. -/
def puts : List Piece → List (Observer × Bytes)
  | .put o bytes :: rest => (o, bytes) :: puts rest
  | .throws :: _ => []
  | [] => []

/-- What one observer put out. -/
def output (o : Observer) (printed : List (Observer × Bytes)) : Bytes :=
  (printed.filter fun piece => piece.1 = o).flatMap Prod.snd

/-- What an observer puts out for a result. -/
def text (r : JobResult) : Observer → Bytes
  | .logging => loggingLine r
  | .dashboard => match Json.dump (eventObject r) with
    | .ok event => event ++ ascii "\n"
    | .error _ => []

theorem output_append (o : Observer) (first second : List (Observer × Bytes)) :
    output o (first ++ second) = output o first ++ output o second := by
  rw [output, List.filter_append, List.flatMap_append]
  rfl

theorem output_flatMap {α : Type} (o : Observer) (f : α → List (Observer × Bytes)) (l : List α) :
    output o (l.flatMap f) = l.flatMap fun a => output o (f a) := by
  induction l with
  | nil => rfl
  | cons a l ih => rw [List.flatMap_cons, output_append, ih, List.flatMap_cons]

/-- The pieces come one after the other. -/
theorem output_prefix (o : Observer) {part whole : List (Observer × Bytes)} (h : part <+: whole) :
    output o part <+: output o whole := by
  rcases h with ⟨more, rfl⟩
  rw [output_append]
  exact List.prefix_append _ _

theorem flatten_loggingPieces (r : JobResult) : (loggingPieces r).flatten = loggingLine r := by
  simp only [loggingPieces, loggingLine, List.flatten_cons, List.flatten_nil, List.append_nil,
    List.append_assoc]

theorem puts_map (o : Observer) (bs : List Bytes) (rest : List Piece) :
    puts (bs.map (.put o) ++ rest) = bs.map (fun b => (o, b)) ++ puts rest := by
  induction bs with
  | nil => rfl
  | cons b bs ih => rw [List.map_cons, List.cons_append, puts, ih, List.map_cons, List.cons_append]

theorem output_map_self (o : Observer) (bs : List Bytes) :
    output o (bs.map fun b => (o, b)) = bs.flatten := by
  rw [output, List.filter_eq_self.mpr fun _ h => ?_, List.flatMap_map, List.flatMap_id']
  rcases List.mem_map.mp h with ⟨b, _, rfl⟩
  exact decide_eq_true rfl

theorem output_map_other {o other : Observer} (h : other ≠ o) (bs : List Bytes) :
    output o (bs.map fun b => (other, b)) = [] := by
  rw [output, List.filter_eq_nil_iff.mpr fun _ hmem => ?_, List.flatMap_nil]
  rcases List.mem_map.mp hmem with ⟨b, _, rfl⟩
  simpa only [decide_eq_true_eq] using h

/-- The observers of `main`, in the order in which they were added. -/
def mainObservers : List Observer := [.logging, .dashboard]

/-- The pieces of a result make up its text. -/
theorem output_puts (r : JobResult) (o : Observer) :
    output o (puts (report mainObservers r)) = text r o := by
  have hreport : report mainObservers r =
      (loggingPieces r).map (.put .logging) ++ observe r .dashboard := by
    simp only [report, mainObservers, List.flatMap_cons, List.flatMap_nil, List.append_nil,
      observe]
  have hsecond : ∃ bs : List Bytes, puts (observe r .dashboard) = bs.map (fun b => (.dashboard, b))
      ∧ bs.flatten = text r .dashboard := by
    cases hdump : Json.dump (eventObject r) with
    | ok event => exact ⟨[event, ascii "\n"], by simp only [observe, hdump, puts, List.map_cons,
        List.map_nil], by simp only [text, hdump, List.flatten_cons, List.flatten_nil,
        List.append_nil]⟩
    | error e => exact ⟨[], by simp only [observe, hdump, puts, List.map_nil], by
        simp only [text, hdump, List.flatten_nil]⟩
  rcases hsecond with ⟨bs, hbs, hflat⟩
  rw [hreport, puts_map, output_append, hbs]
  cases o with
  | logging =>
      rw [output_map_self, output_map_other Observer.noConfusion, List.append_nil,
        flatten_loggingPieces, text]
  | dashboard =>
      rw [output_map_self, output_map_other Observer.noConfusion, List.nil_append, hflat]

/-! ## One report after the other -/

/-- The result whose report a step completes. -/
def reported (s : State n) : Action n → Option JobResult
  | .unlockCollector w => match s.pool.workers w with
    | .submitting job res => some (jobResult job res)
    | _ => none
  | _ => none

/-- What every step preserves; `rs` are the results whose report is over. -/
structure Reporting (observers : List Observer) (rs : List JobResult) (s : State n) : Prop where
  excl : s.collector.Exclusive
  ids : rs.map JobResult.jobId = s.pool.returned.reverse
  complete : ∀ r ∈ rs, .throws ∉ report observers r
  free : s.collector.holder = none →
    s.printed = rs.flatMap fun r => puts (report observers r)
  busy : ∀ w rest, s.collector.inside w = some rest → ∃ job res done,
    s.pool.workers w = .submitting job res ∧
      report observers (jobResult job res) = done.map (fun p => .put p.1 p.2) ++ rest ∧
      s.printed = (rs.flatMap fun r => puts (report observers r)) ++ done

theorem puts_done (done : List (Observer × Bytes)) (rest : List Piece) :
    puts (done.map (fun p => .put p.1 p.2) ++ rest) = done ++ puts rest := by
  induction done with
  | nil => rfl
  | cons p done ih => rw [List.map_cons, List.cons_append, puts, ih, List.cons_append]

/-- A worker that is in a section of the queue is about to take a job or to put
    one back. -/
theorem not_submitting_of_inside {q : Queue} (hs : Atomic sched s q) {w : Fin n}
    {rest : Sections.Body Queue Outcome}
    (hi : s.queue.inside (.worker w) = some (.running rest)) (job : Job) (res : ExecutionResult) :
    s.pool.workers w ≠ .submitting job res := by
  intro hw
  rcases hs.covers.busy _ rest hi with ⟨body, hbody, _⟩
  simp only [whole, hw, reduceCtorEq] at hbody

theorem notifyOne_submitting {ws ws' : Fin n → Worker} {wake : Option (Fin n)} {w : Fin n}
    {job : Job} {res : ExecutionResult} (h : notifyOne ws wake = some ws')
    (hw : ws w = .submitting job res) : ws' w = .submitting job res :=
  (Pool.notifyOne_eq h Worker.noConfusion Worker.noConfusion w).mpr hw

/-- A worker that reports stays where it is until it is done. -/
theorem submitting_moves {q : Queue} (hs : Atomic sched s q) {a : Action n} {w : Fin n} {job : Job}
    {res : ExecutionResult} (hw : s.pool.workers w = .submitting job res)
    (h : Moves sched observers s a t) (ha : a ≠ .unlockCollector w) :
    t.pool.workers w = .submitting job res := by
  have hother : ∀ x v u, s.pool.workers x = v → v ≠ .submitting job res →
      (setWorker s.pool x u).workers w = .submitting job res := by
    intro x v u hx hv
    have hne : w ≠ x := by
      rintro rfl
      exact hv (hx.symm.trans hw)
    rw [Pool.setWorker_workers_other s.pool x w u hne, hw]
  cases h with
  | calls | locks | acts | stops | unlocks | locksCollector | puts | throws => exact hw
  | leaves x out p hi hp =>
      have hne := not_submitting_of_inside hs hi
      cases out with
      | blocks | departs | takes =>
          rw [afterDequeue, Option.some.injEq] at hp
          exact hp ▸ hother x _ _ rfl (hne job res)
      | undefined =>
          rw [afterDequeue, Option.some.injEq] at hp
          exact hp ▸ hw
      | added | stopped => simp only [afterDequeue, reduceCtorEq] at hp
  | requeues x wake held ws hi hx hwake =>
      exact notifyOne_submitting hwake (hother x _ _ hx Worker.noConfusion)
  | enqueues c wake sub ws hi hc hwake => exact notifyOne_submitting hwake hw
  | notifies hflagged hstopped =>
      exact (Pool.notifyAll_eq _ Worker.noConfusion Worker.noConfusion w).mpr hw
  | unlocksCollector x p hx hp =>
      have hne : w ≠ x := by
        rintro rfl
        exact ha rfl
      cases hp with
      | reports x held out hx => exact (Pool.setWorker_workers_other _ x w _ hne).trans hw
  | owns b p hb hp =>
      have hcalls := callsQueue_of_needsNoMutex hb
      cases hp with
      | enqueues | blocks | departs | takes | requeues | stops =>
          exact absurd hcalls Bool.true_eq_false.mp
      | reports => exact absurd hb Bool.false_ne_true
      | clears | joins => exact hw
      | enters x hx | leaves x hx | wakes x hx | preempts x held out pid uniqueId hx
        | finishes x held out pid uniqueId hx | files x held out hx | passes x held out hx
        | breaks x held out p hx | pays x held out p hx | ends x held hx =>
          exact hother x _ _ hx Worker.noConfusion

theorem reporting_init (n : Nat) : Reporting observers [] (init n) where
  excl := Sections.exclusive_free
  ids := rfl
  complete _ h := absurd h List.not_mem_nil
  free _ := rfl
  busy _ _ h := absurd h.symm (Option.some_ne_none _)

/-- Only a report that ends counts as one. -/
theorem returned_moves {a : Action n} (h : Moves sched observers s a t)
    (ha : ∀ w, a ≠ .unlockCollector w) : t.pool.returned = s.pool.returned := by
  cases h with
  | unlocksCollector w => exact absurd rfl (ha w)
  | leaves x out p hi hp =>
      cases out <;> simp only [afterDequeue, Option.some.injEq, reduceCtorEq] at hp <;>
        exact hp ▸ rfl
  | owns b p hb hp => cases hp with
      | reports => exact absurd hb Bool.false_ne_true
      | _ => rfl
  | _ => rfl

/-- A step of others, or of the one that reports outside its report. -/
theorem Reporting.keep {rs : List JobResult} (hs : Reporting observers rs s)
    (hc : t.collector = s.collector) (hp : t.printed = s.printed)
    (hr : t.pool.returned = s.pool.returned)
    (hw : ∀ w job res, s.pool.workers w = .submitting job res →
      t.pool.workers w = .submitting job res) : Reporting observers rs t where
  excl := hc ▸ hs.excl
  ids := hr ▸ hs.ids
  complete := hs.complete
  free h := hp ▸ hs.free (hc ▸ h)
  busy w rest h := by
    rcases hs.busy w rest (hc ▸ h) with ⟨job, res, done, hsub, hreport, hprinted⟩
    exact ⟨job, res, done, hw w job res hsub, hreport, hp ▸ hprinted⟩

/-- The end of a report. -/
theorem reporting_ends {rs : List JobResult} (hs : Reporting observers rs s) {w : Fin n}
    {p : Pool.State n} (hw : s.collector.inside w = some [])
    (hp : Pool.Moves sched s.pool (.returnFromSubmitResult w) p) :
    Reporting observers (rs ++ (reported s (.unlockCollector w)).toList)
      { s with pool := p, collector := s.collector.give w } := by
  rcases hs.busy w [] hw with ⟨job, res, done, hsub, hreport, hprinted⟩
  rw [List.append_nil] at hreport
  have hdone : puts (report observers (jobResult job res)) = done := by
    rw [hreport, ← List.append_nil (done.map _), puts_done, puts, List.append_nil]
  simp only [reported, hsub, Option.toList_some]
  refine ⟨Sections.exclusive_give hs.excl hw, ?_, fun r hr => ?_, fun _ => ?_, fun x rest hx => ?_⟩
  · cases hp with
    | reports x held out hx =>
        have heq : held = job := (Worker.submitting.inj (hx.symm.trans hsub)).1
        rw [List.map_append, hs.ids, heq, List.reverse_cons]
        rfl
  · rcases List.mem_append.mp hr with hold | hnew
    · exact hs.complete r hold
    · rw [List.mem_singleton.mp hnew, hreport]
      intro hthrow
      rcases List.mem_map.mp hthrow with ⟨p, _, hp⟩
      simp only [reduceCtorEq] at hp
  · rw [hprinted, List.flatMap_append, List.flatMap_singleton, hdone]
  · rw [hs.excl.inside_give hw] at hx
    simp only [reduceCtorEq] at hx

/-- A step keeps the reports apart. -/
theorem reporting_moves {q : Queue} {rs : List JobResult} (hq : Atomic sched s q)
    (hs : Reporting observers rs s) {a : Action n} (h : Moves sched observers s a t) :
    Reporting observers (rs ++ (reported s a).toList) t := by
  by_cases hend : ∃ w, a = .unlockCollector w
  · rcases hend with ⟨w, rfl⟩
    cases h with
    | unlocksCollector w p hw hp => exact reporting_ends hs hw hp
  · have hno : ∀ w, a ≠ .unlockCollector w := fun w heq => hend ⟨w, heq⟩
    have hnothing : reported s a = none := by
      cases a with
      | unlockCollector w => exact absurd rfl (hno w)
      | _ => rfl
    rw [hnothing, Option.toList_none, List.append_nil]
    have hwork : ∀ w job res, s.pool.workers w = .submitting job res →
        t.pool.workers w = .submitting job res := fun w job res hw =>
      submitting_moves hq hw h (hno w)
    have hreturned := returned_moves h hno
    cases h with
    | locksCollector w job res m hw hm =>
        have hinside := Sections.exclusive_take hs.excl hm
        rcases Mutex.take_eq_some.mp hm with ⟨hfree, rfl⟩
        refine ⟨hinside, hs.ids, hs.complete, fun hnone => ?_, fun x rest hx => ?_⟩
        · simp only [reduceCtorEq] at hnone
        · by_cases hxw : x = w
          · subst hxw
            simp only [Function.update_self, Option.some.injEq] at hx
            refine ⟨job, res, [], hw, ?_, ?_⟩
            · rw [← hx]
              rfl
            · rw [List.append_nil]
              exact hs.free hfree
          · simp only [Function.update_of_ne hxw, hs.excl.outside hfree, reduceCtorEq] at hx
    | puts w o bytes rest hw =>
        rcases hs.busy w _ hw with ⟨job, res, done, hsub, hreport, hprinted⟩
        refine ⟨Sections.exclusive_goOn hs.excl hw, hs.ids, hs.complete, fun hnone => ?_,
          fun x more hx => ?_⟩
        · have hheld := (hs.excl w).mpr ⟨_, hw⟩
          exact absurd (hheld.symm.trans hnone) (Option.some_ne_none w)
        · by_cases hxw : x = w
          · subst hxw
            rw [Mutex.inside_goOn_self, Option.some.injEq] at hx
            refine ⟨job, res, done ++ [(o, bytes)], hsub, ?_, ?_⟩
            · rw [hreport, ← hx, List.map_append, List.append_assoc]
              rfl
            · rw [hprinted, List.append_assoc]
          · rw [Mutex.inside_goOn_other _ _ hxw] at hx
            exact absurd (hs.excl.eq hx hw) hxw
    | unlocksCollector w => exact absurd rfl (hno w)
    | _ => exact hs.keep rfl rfl hreturned hwork

/-- What the observers have put out when the reports of `rs` are over. -/
structure Reports (rs : List JobResult) (s : State n) : Prop where
  /-- The results are those of the calls of `submitResult` that returned, in
      that order. -/
  order : rs.map JobResult.jobId = s.pool.returned.reverse
  /-- Each was put out whole. -/
  complete : ∀ r ∈ rs, ∃ event, Json.dump (eventObject r) = .ok event
  /-- What an observer put out is one whole text after the other, and a part of
      that of the result being reported. -/
  output : ∀ o, ∃ part, output o s.printed = (rs.flatMap fun r => text r o) ++ part ∧
    (s.collector.holder = none → part = []) ∧
    ∀ w, s.collector.holder = some w → ∃ job res, s.pool.workers w = .submitting job res ∧
      part <+: text (jobResult job res) o

/-- In every run, with any number of workers that report at the same time. -/
theorem reports_whole (sched : Scheduler) (n : Nat) (actions : List (Action n)) (s : State n)
    (h : Lts.run (step sched mainObservers) (init n) actions = some s) :
    Reports (Lts.trace (step sched mainObservers) reported (init n) actions) s := by
  have hstep : ∀ rs (u : State n) a v,
      (∃ q, Atomic sched u q) ∧ Reporting mainObservers rs u →
      step sched mainObservers u a = some v →
      (∃ q, Atomic sched v q) ∧ Reporting mainObservers (rs ++ (reported u a).toList) v := by
    rintro rs u a v ⟨⟨q, hq⟩, hu⟩ hv
    refine ⟨?_, reporting_moves hq hu (moves_of_step hv)⟩
    rcases atomic_step hq (moves_of_step hv) with ⟨r, hr⟩
    exact ⟨r, hr⟩
  have hinv := Lts.trace_invariant hstep ⟨⟨_, atomic_init n⟩, reporting_init n⟩ h
  rw [List.nil_append] at hinv
  have hs := hinv.2
  refine ⟨hs.ids, fun r hr => ?_, fun o => ?_⟩
  · cases hdump : Json.dump (eventObject r) with
    | ok event => exact ⟨event, rfl⟩
    | error e =>
        refine absurd ?_ (hs.complete r hr)
        refine List.mem_flatMap.mpr ⟨.dashboard, List.mem_cons_of_mem _ List.mem_cons_self, ?_⟩
        simp only [observe, hdump, List.mem_singleton]
  · cases hholder : s.collector.holder with
    | none =>
        refine ⟨[], ?_, fun _ => rfl, fun w hw => ?_⟩
        · rw [hs.free hholder, output_flatMap, List.append_nil]
          simp only [output_puts]
        · simp only [reduceCtorEq] at hw
    | some w =>
        rcases (hs.excl w).mp hholder with ⟨rest, hrest⟩
        rcases hs.busy w rest hrest with ⟨job, res, done, hsub, hreport, hprinted⟩
        refine ⟨output o done, ?_, fun hnone => ?_, fun x hx => ⟨job, res, ?_, ?_⟩⟩
        · rw [hprinted, output_append, output_flatMap]
          simp only [output_puts]
        · simp only [reduceCtorEq] at hnone
        · rw [Option.some.injEq] at hx
          exact hx ▸ hsub
        · rw [← output_puts, hreport, puts_done]
          exact output_prefix o (List.prefix_append _ _)

/-- Two workers have a result to report; the second one is in the middle of its
    line. -/
def twoReports (v w : Fin n) : List (Action n) :=
  let enqueue (c : Nat) : List (Action n) := [.call c ⟨c, {}, none, 0, 0⟩, .lock (.client c),
    .act (.client c), .act (.client c), .notify (.client c) none, .unlock (.client c)]
  let serve (x : Fin n) : List (Action n) := [.own (.testRunning x), .lock (.worker x),
    .act (.worker x), .act (.worker x), .act (.worker x), .act (.worker x), .leave (.worker x),
    .own (.execute x { exitCode := 0, success := true } 10 1), .own (.callSubmitResult x)]
  enqueue 0 ++ enqueue 1 ++ serve v ++ serve w ++ [.lockCollector w, .put w, .put w]

theorem reports_whole_two : ∃ s : State 2, s.collector.holder = some 1 ∧
    (∃ job res, s.pool.workers 0 = .submitting job res) ∧
    Reports (Lts.trace (step .fcfs mainObservers) reported (init 2) (twoReports 0 1)) s := by
  have hrun : (Lts.run (step .fcfs mainObservers) (init 2) (twoReports 0 1)).map
      (fun s => (s.collector.holder, s.pool.workers 0)) = some (some 1, .submitting
        { id := 0, cmd := {}, resultPromise := none, pid := 10, uniqueId := 1 }
        { exitCode := 0, success := true }) := by decide +kernel
  rcases Option.map_eq_some_iff.mp hrun with ⟨s, hs, heq⟩
  rw [Prod.mk.injEq] at heq
  exact ⟨s, heq.1, ⟨_, _, heq.2⟩, reports_whole .fcfs 2 (twoReports 0 1) s hs⟩

end Locks

end Isolyx
