import Isolyx.Core.Engine
import Isolyx.Theory.Submission

/-!
# Jobs That Come by the Command Pipe

Whether such a job can act on the engine itself. A line that is no job changes
nothing, and a job whose command is a program only lives in its own process.
What is left is `handleBuiltin`: the daemon thread does not look at the command
it enqueues, and `execute` runs `exit` and `cd` on the worker as it would on
the main thread.

So it depends on the line alone. A line is harmless if its command is neither
`exit` nor a `cd` that leads somewhere. Which lines arrive is up to whoever
writes to the pipe, and the jobs of a run leave the engine alone, whatever else
happens in it, exactly if all lines that may arrive are harmless.

The step lemma needs to know which job came from where. Ids do that: the
counter hands out each once, so an id below it belongs to one job for good.

## Main definitions

* `Holds`: A condition on the jobs in the pool, by id and command.
* `Harmless`: The line's command neither ends nor moves the engine.
* `ForRemote`: The step reads a line of the pipe, or executes such a job.
* `Untouched`: Such a step leaves the engine running in its directory.

## Theorems

* `holds_moves`: A condition that holds for what is enqueued holds in the pool.
* `guarded_of_step`: The jobs of harmless lines stay harmless.
* `untouched_of_step`: Their steps leave the engine alone.
* `submit_isSome`: A submission is never refused.
* `executes_line`: Every job line is executed by some run.
* `untouched_iff_harmless`: The engine is left alone exactly by harmless lines.
* `exit_line_ends`: A line whose command is `exit` ends the engine.
-/

namespace Isolyx

namespace Pool

variable {n : Nat} {sched : Scheduler} {s t : State n} {a : Action n}

/-! ## The jobs in the pool -/

/-- Every job in the deque or in a worker's hands meets a condition on its id
    and its command. -/
structure Holds (P : Nat → Command → Prop) (s : State n) : Prop where
  queued : ∀ job ∈ s.jobs, P job.id job.cmd
  inHands : ∀ w job, (s.workers w).job? = some job → P job.id job.cmd

variable {P : Nat → Command → Prop}

theorem Holds.imp {Q : Nat → Command → Prop} (hs : Holds P s) (h : ∀ i cmd, P i cmd → Q i cmd) :
    Holds Q s :=
  ⟨fun job hj => h _ _ (hs.queued job hj), fun w job hw => h _ _ (hs.inHands w job hw)⟩

/-- A worker moves on with a job that meets the condition, or with none. -/
theorem Holds.setWorker (hs : Holds P s) {w : Fin n} {v : Worker}
    (hv : ∀ job, v.job? = some job → P job.id job.cmd) (hjobs : t.jobs = s.jobs)
    (hworkers : t.workers = (Pool.setWorker s w v).workers) : Holds P t where
  queued := hjobs ▸ hs.queued
  inHands x job hx := by
    rw [hworkers] at hx
    rcases job?_setWorker hx with hjob | ⟨_, hx⟩
    · exact hv job hjob
    · exact hs.inHands x job hx

/-- The workers keep their jobs, and every job in the deque meets the condition. -/
theorem Holds.keep (hs : Holds P s) (hqueued : ∀ job ∈ t.jobs, P job.id job.cmd)
    (hworkers : ∀ w, (t.workers w).job? = (s.workers w).job?) : Holds P t where
  queued := hqueued
  inHands w job hw := hs.inHands w job (hworkers w ▸ hw)

/-- A condition that holds for what is enqueued holds in the pool. -/
theorem holds_moves (hs : Holds P s) (h : Moves sched s a t)
    (hnew : ∀ sub wake, a = .enqueue sub wake → P sub.id sub.cmd) : Holds P t := by
  -- a worker goes on with the job it has, as far as id and command go
  have hsame : ∀ {w : Fin n} {u : Worker} {held job : Job}, s.workers w = u →
      u.job? = some held → job.id = held.id → job.cmd = held.cmd → P job.id job.cmd := by
    intro w u held job hw hu hid hcmd
    rw [hid, hcmd]
    exact hs.inHands w held (by rw [hw, hu])
  cases h with
  | enqueues sub wake ws hfresh hwake =>
      refine hs.keep (fun job hj => ?_) (job?_notifyOne hwake)
      rcases List.mem_append.mp hj with hj | hj
      · exact hs.queued job hj
      · rw [List.mem_singleton] at hj
        subst hj
        exact hnew sub wake rfl
  | requeues w held wake ws hw hwake =>
      have hheld := hs.inHands w held (by rw [hw]; rfl)
      have hset : Holds P (Pool.setWorker s w .atLoopHead) :=
        hs.setWorker (by simp [Worker.job?]) rfl rfl
      refine hset.keep (fun job hj => ?_) (job?_notifyOne hwake)
      rcases List.mem_append.mp hj with hj | hj
      · exact hs.queued job hj
      · rw [List.mem_singleton] at hj
        subst hj
        exact hheld
  | takes w held rest hw hg =>
      have hperm := Scheduler.getNextJob_perm hg
      have hrest : Holds P { s with jobs := rest } := hs.keep
        (fun job hj => hs.queued job (hperm.mem_iff.mpr (List.mem_cons_of_mem _ hj))) fun _ => rfl
      refine hrest.setWorker (fun job hjob => ?_) rfl rfl
      rw [Worker.job?, Option.some.injEq] at hjob
      exact hjob ▸ hs.queued held (hperm.mem_iff.mpr List.mem_cons_self)
  | stops hstop => exact hs.keep hs.queued fun w => job?_notifyAll s.workers w
  | clears hstop | joins hstop hw => exact ⟨hs.queued, hs.inHands⟩
  | enters w hw | leaves w hw | blocks w hw | departs w hw | wakes w hw | breaks w held res p hw
  | ends w held hw => exact hs.setWorker (by simp [Worker.job?]) rfl rfl
  | preempts w held res pid uniqueId hw hp | finishes w held res pid uniqueId hw hp
  | files w held res hw | reports w held res hw | passes w held res hw | pays w held res p hw =>
      refine hs.setWorker (fun job hjob => ?_) rfl rfl
      rw [Worker.job?, Option.some.injEq] at hjob
      exact hjob ▸ hsame hw rfl rfl rfl

/-- An accepted job has this id and this command. -/
def Accepted (accepted : List Job) (i : Nat) (cmd : Command) : Prop :=
  ∃ a ∈ accepted, a.id = i ∧ a.cmd = cmd

theorem accepted_mono (h : Moves sched s a t) : ∀ job ∈ s.accepted, job ∈ t.accepted := by
  cases h with
  | enqueues => exact fun job hjob => List.mem_append_left _ hjob
  | _ => exact fun job hjob => hjob

theorem accepted_of_enqueue {sub : Submission} {wake : Option (Fin n)}
    (h : Moves sched s (.enqueue sub wake) t) : t.accepted = s.accepted ++ [sub.job] := by
  cases h with
  | enqueues => rfl

/-- No step changes the command of a job. -/
theorem named_moves (hs : Holds (Accepted s.accepted) s) (h : Moves sched s a t) :
    Holds (Accepted t.accepted) t := by
  refine holds_moves (hs.imp fun i cmd ⟨x, hx, hname⟩ => ⟨x, accepted_mono h x hx, hname⟩) h ?_
  rintro sub wake rfl
  refine ⟨sub.job, ?_, rfl, rfl⟩
  rw [accepted_of_enqueue h]
  exact List.mem_append_right _ (List.mem_singleton_self _)

end Pool

namespace Engine

open CommandLine (parseJob parseJob_nil)
open Invocation (cString)

variable {n : Nat} {setup : Setup} {s t : State n} {a : Action n}

/-! ## Harmless lines -/

/-- The command neither ends the engine nor moves it to another directory. -/
structure HarmlessCommand (setup : Setup) (cmd : Command) : Prop where
  stays : cmd.executable ≠ ascii "exit"
  leadsBack : cmd.executable = ascii "cd" → ∀ path, cmd.arguments[1]? = some path →
    ∀ d e, setup.leads d (cString path) (some e) = true → e = d

/-- The line is no job, or the job of a harmless command. -/
def Harmless (setup : Setup) (line : Bytes) : Prop :=
  ∀ cmd, parseJob line = some cmd → HarmlessCommand setup cmd

/-- A line of the pipe that is read is harmless. -/
def ReadsHarmless (setup : Setup) (_ : State n) : Action n → Prop
  | .daemonLine line _ => Harmless setup line
  | _ => True

/-- The step reads a line of the pipe, or executes a job that came by one. -/
def ForRemote (s : State n) : Action n → Prop
  | .daemonLine _ _ => True
  | .builtin w _ | .burst w _ | .endBurst w _ _ =>
      ∃ job, s.pool.workers w = .executing job ∧ job.id ∈ s.remote
  | .process i _ => i ∈ s.remote
  | _ => False

/-- Reading a line and executing its job leaves the engine running in its
    directory, and a malformed line leaves the queue and the counter alone. -/
structure Untouched (setup : Setup) (s : State n) (a : Action n) : Prop where
  engine : ∀ t, step setup s a = some t → ForRemote s a → t.alive = s.alive ∧ t.cwd = s.cwd
  malformed : ∀ t line wake, step setup s a = some t → a = .daemonLine line wake →
    parseJob line = none → t.pool.jobs = s.pool.jobs ∧ t.nextJobId = s.nextJobId

/-! ## The jobs of harmless lines -/

/-- What is known of a job by its id. -/
def Known (setup : Setup) (next : Nat) (remote : List Nat) (i : Nat) (cmd : Command) : Prop :=
  i < next ∧ (i ∈ remote → HarmlessCommand setup cmd)

/-- Every job that came by the pipe is harmless, and the next id is new. -/
structure Guarded (setup : Setup) (s : State n) : Prop where
  known : Pool.Holds (Known setup s.nextJobId s.remote) s.pool
  remote : ∀ i ∈ s.remote, i < s.nextJobId

theorem guarded_init (n dir : Nat) : Guarded setup (init n dir) where
  known := ⟨by simp [init, Pool.init], by simp [init, Pool.init, Pool.Worker.job?]⟩
  remote := by simp [init]

/-- The pool takes a step that enqueues nothing. -/
theorem Guarded.pool (hs : Guarded setup s) {b : Pool.Action n} {p : Pool.State n}
    (hpool : Pool.step setup.sched s.pool b = some p) (hb : ∀ sub wake, b ≠ .enqueue sub wake)
    (htpool : t.pool = p) (hnext : t.nextJobId = s.nextJobId) (hremote : t.remote = s.remote) :
    Guarded setup t where
  known := by
    rw [htpool, hnext, hremote]
    exact Pool.holds_moves hs.known (Pool.moves_of_step hpool)
      fun sub wake heq => absurd heq (hb sub wake)
  remote := hremote ▸ hnext ▸ hs.remote

/-- A job is submitted under the next id, and counted as remote only if it is
    harmless. -/
theorem Guarded.submit (hs : Guarded setup s) {cmd : Command} {wake : Option (Fin n)}
    {u : State n} (hsub : submit setup s cmd wake = some u) (htpool : t.pool = u.pool)
    (hnext : t.nextJobId = u.nextJobId)
    (hremote : t.remote = s.remote ∨
      t.remote = s.nextJobId :: s.remote ∧ HarmlessCommand setup cmd) : Guarded setup t := by
  rcases submit_eq_some hsub with ⟨p, hpool, rfl⟩
  have hmem : ∀ i ∈ t.remote, i ∈ s.remote ∨ i = s.nextJobId ∧ HarmlessCommand setup cmd := by
    intro i hi
    rcases hremote with heq | ⟨heq, hharmless⟩
    · exact .inl (heq ▸ hi)
    · rw [heq, List.mem_cons] at hi
      rcases hi with hi | hi
      · exact .inr ⟨hi, hharmless⟩
      · exact .inl hi
  constructor
  · rw [htpool, hnext]
    -- an id below the counter is not the new one
    have hknown : Pool.Holds (Known setup (s.nextJobId + 1) t.remote) s.pool := by
      refine hs.known.imp fun i held hheld =>
        ⟨Nat.lt_succ_of_lt hheld.1, fun hi => ?_⟩
      rcases hmem i hi with hi | ⟨hi, _⟩
      · exact hheld.2 hi
      · exact absurd hheld.1 (by omega)
    refine Pool.holds_moves hknown (Pool.moves_of_step hpool) fun sub' wake' heq => ?_
    rw [Pool.Action.enqueue.injEq] at heq
    rw [← heq.1]
    refine ⟨Nat.lt_succ_self _, fun hi => ?_⟩
    rcases hmem _ hi with hi | ⟨_, hharmless⟩
    · exact absurd (hs.remote _ hi) (Nat.lt_irrefl _)
    · exact hharmless
  · intro i hi
    rw [hnext]
    rcases hmem i hi with hi | ⟨hi, _⟩
    · exact Nat.lt_succ_of_lt (hs.remote i hi)
    · exact hi ▸ Nat.lt_succ_self _

theorem Handles.same {cmd : Command} (h : Handles setup s cmd t) :
    t.pool = s.pool ∧ t.nextJobId = s.nextJobId ∧ t.remote = s.remote := by
  cases h <;> exact ⟨rfl, rfl, rfl⟩

theorem guarded_of_step (hs : Guarded setup s) (hline : ReadsHarmless setup s a)
    (h : step setup s a = some t) : Guarded setup t := by
  cases moves_of_step h with
  | skips | ignores | resumes | returns | quits => exact ⟨hs.known, hs.remote⟩
  | accepts line wake cmd u hparse hsub =>
      refine hs.submit hsub rfl rfl (.inr ⟨?_, hline cmd hparse⟩)
      rcases submit_eq_some hsub with ⟨p, -, rfl⟩
      rfl
  | submits line outcome wake main u hc hsub =>
      refine hs.submit hsub rfl rfl (.inl ?_)
      rcases submit_eq_some hsub with ⟨p, -, rfl⟩
      rfl
  | interprets line outcome wake t hc hh =>
      rcases hh.same with ⟨hpool, hnext, hremote⟩
      exact ⟨by rw [hpool, hnext, hremote]; exact hs.known, by rw [hnext, hremote]; exact hs.remote⟩
  | stops p hpool => exact hs.pool hpool (by simp) rfl rfl rfl
  | loops b p hb hpool =>
      refine hs.pool hpool (fun sub wake heq => ?_) rfl rfl rfl
      simp [heq, Pool.Action.ofLoop] at hb
  | executes w outcome job res u v hw hc hh ht hret =>
      rcases hh.same with ⟨hpool, hnext, hremote⟩
      rcases returnResult_eq_some hret with ⟨p, hstep, rfl⟩
      exact hs.pool (hpool ▸ hstep) (by simp) rfl hnext hremote
  | bursts w b job u hw hc hb hburst =>
      rcases burst_eq_some hburst with ⟨j, -, rfl⟩
      exact ⟨hs.known, hs.remote⟩
  | ends w pid uniqueId job res u v hw hp hlive hret =>
      rcases live_eq_some hlive with ⟨j, -, rfl⟩
      rcases returnResult_eq_some hret with ⟨p, hstep, rfl⟩
      exact hs.pool hstep (by simp) rfl rfl rfl
  | lives i b u hb hlive =>
      rcases live_eq_some hlive with ⟨j, -, rfl⟩
      exact ⟨hs.known, hs.remote⟩

/-! ## The counter -/

/-- The counter is past the ids and the promises of all accepted jobs. -/
def Counted (s : State n) : Prop :=
  ∀ a ∈ s.pool.accepted, a.id < s.nextJobId ∧ ∀ p, a.resultPromise = some p → p < s.nextJobId

theorem Counted.keep (hs : Counted s) (haccepted : t.pool.accepted = s.pool.accepted)
    (hnext : t.nextJobId = s.nextJobId) : Counted t := by
  intro a ha
  rw [hnext]
  exact hs a (haccepted ▸ ha)

theorem Counted.submit (hs : Counted s) {cmd : Command} {wake : Option (Fin n)} {u : State n}
    (hsub : submit setup s cmd wake = some u) : Counted u := by
  rcases submit_eq_some hsub with ⟨p, hpool, rfl⟩
  cases Pool.moves_of_step hpool with
  | enqueues sub wake ws hnew hwake =>
      intro a ha
      rcases List.mem_append.mp ha with ha | ha
      · exact ⟨Nat.lt_succ_of_lt (hs a ha).1, fun p hp => Nat.lt_succ_of_lt ((hs a ha).2 p hp)⟩
      · rw [List.mem_singleton] at ha
        subst ha
        refine ⟨Nat.lt_succ_self _, fun p hp => ?_⟩
        have heq : s.nextJobId = p := Option.some.inj hp
        exact heq ▸ Nat.lt_succ_self _

theorem counted_of_step (hs : Counted s) (h : step setup s a = some t) : Counted t := by
  have hpool : ∀ {b : Pool.Action n} {p : Pool.State n},
      Pool.step setup.sched s.pool b = some p → (∀ sub wake, b ≠ .enqueue sub wake) →
      p.accepted = s.pool.accepted := fun hp hb =>
    Pool.accepted_of_moves (Pool.moves_of_step hp) hb
  cases moves_of_step h with
  | skips | ignores | resumes | returns | quits => exact hs
  | accepts line wake cmd u hparse hsub => exact (hs.submit hsub).keep rfl rfl
  | submits line outcome wake main u hc hsub => exact (hs.submit hsub).keep rfl rfl
  | interprets line outcome wake t hc hh =>
      rcases hh.same with ⟨hp, hnext, -⟩
      exact hs.keep (by rw [hp]) hnext
  | stops p hp => exact hs.keep (hpool hp (by simp)) rfl
  | loops b p hb hp =>
      refine hs.keep (hpool hp fun sub wake heq => ?_) rfl
      simp [heq, Pool.Action.ofLoop] at hb
  | executes w outcome job res u v hw hc hh ht hret =>
      rcases hh.same with ⟨hp, hnext, -⟩
      rcases returnResult_eq_some hret with ⟨p, hstep, rfl⟩
      exact hs.keep (hpool (hp ▸ hstep) (by simp)) hnext
  | bursts w b job u hw hc hb hburst =>
      rcases burst_eq_some hburst with ⟨j, -, rfl⟩
      exact hs
  | ends w pid uniqueId job res u v hw hp hlive hret =>
      rcases live_eq_some hlive with ⟨j, -, rfl⟩
      rcases returnResult_eq_some hret with ⟨p, hstep, rfl⟩
      exact hs.keep (hpool hstep (by simp)) rfl
  | lives i b u hb hlive =>
      rcases live_eq_some hlive with ⟨j, -, rfl⟩
      exact hs

/-- A job that is submitted is new to the pool, so that a submission waits for
    nothing but the mutex. -/
theorem submit_isSome {dir : Nat} {actions : List (Action n)}
    (hr : Lts.run (step setup) (init n dir) actions = some s) (cmd : Command)
    {wake : Option (Fin n)} (hwake : (Pool.notifyOne s.pool.workers wake).isSome = true) :
    (submit setup s cmd wake).isSome = true := by
  have hcounted : Counted s := Lts.run_invariant (fun _ _ _ hs h => counted_of_step hs h)
    (fun a ha => by simp [init, Pool.init] at ha) hr
  have hnew : (submission setup s cmd).isNew s.pool.accepted = true := by
    rw [Pool.isNew_iff]
    intro a ha
    refine ⟨fun heq => ?_, .inr fun heq => ?_⟩
    · exact absurd (hcounted a ha).1 (by rw [heq]; exact Nat.lt_irrefl _)
    · exact absurd ((hcounted a ha).2 _ heq) (Nat.lt_irrefl _)
  rcases Option.isSome_iff_exists.mp hwake with ⟨ws, hws⟩
  simp only [submit, Pool.step, hnew, if_true, Pool.enqueue, hws, Option.map_some,
    Option.isSome_some]

/-! ## Single steps -/

/-- Handling a harmless command leaves the engine alone. -/
theorem HarmlessCommand.handles {cmd : Command} (hc : HarmlessCommand setup cmd)
    (h : Handles setup s cmd t) : t.alive = s.alive ∧ t.cwd = s.cwd := by
  cases h with
  | exits hexit => exact absurd hexit hc.stays
  | stays => exact ⟨rfl, rfl⟩
  | enters path d hcd hpath hleads => exact ⟨rfl, hc.leadsBack hcd path hpath _ _ hleads⟩

/-- A job in a worker's hands that came by the pipe is harmless. -/
theorem Guarded.harmless (hs : Guarded setup s) {w : Fin n} {job : Job}
    (hw : s.pool.workers w = .executing job)
    (hremote : ∃ held, s.pool.workers w = .executing held ∧ held.id ∈ s.remote) :
    HarmlessCommand setup job.cmd := by
  rcases hremote with ⟨held, hheld, hmem⟩
  rw [hw, Pool.Worker.executing.injEq] at hheld
  exact (hs.known.inHands w job (by rw [hw]; rfl)).2 (hheld ▸ hmem)

theorem untouched_of_step (hs : Guarded setup s) (h : step setup s a = some t) :
    Untouched setup s a := by
  have huniq : ∀ u, step setup s a = some u → u = t := fun u hu =>
    Option.some.inj (hu.symm.trans h)
  refine ⟨fun u hu hremote => ?_, fun u line wake hu ha hparse => ?_⟩
  · rw [huniq u hu]
    cases moves_of_step h with
    | skips => exact ⟨rfl, rfl⟩
    | accepts line wake cmd u hparse hsub =>
        rcases submit_eq_some hsub with ⟨p, -, rfl⟩
        exact ⟨rfl, rfl⟩
    | ignores | submits | interprets | resumes | stops | returns | loops => exact hremote.elim
    | executes w outcome job res u v hw hc hh ht hret =>
        have hsame := (hs.harmless hw hremote).handles hh
        rcases returnResult_eq_some hret with ⟨p, -, rfl⟩
        exact hsame
    | quits w outcome job hw hexit => exact absurd hexit (hs.harmless hw hremote).stays
    | bursts w b job u hw hc hb hburst =>
        rcases burst_eq_some hburst with ⟨j, -, rfl⟩
        exact ⟨rfl, rfl⟩
    | ends w pid uniqueId job res u v hw hp hlive hret =>
        rcases live_eq_some hlive with ⟨j, -, rfl⟩
        rcases returnResult_eq_some hret with ⟨p, -, rfl⟩
        exact ⟨rfl, rfl⟩
    | lives i b u hb hlive =>
        rcases live_eq_some hlive with ⟨j, -, rfl⟩
        exact ⟨rfl, rfl⟩
  · rw [huniq u hu]
    subst ha
    cases moves_of_step h with
    | skips => exact ⟨rfl, rfl⟩
    | accepts line wake cmd u hjob hsub =>
        exact absurd (hparse.symm.trans hjob) (by simp)

/-! ## A run that executes a line -/

/-- The actions that take a line from the pipe to the hands of the first worker. -/
def executing (n : Nat) (line : Bytes) : List (Action (n + 1)) :=
  [.daemonLine line none, .pool (.testRunning 0), .pool (.dequeue 0)]

theorem getNextJob_singleton (sched : Scheduler) (job : Job) :
    sched.getNextJob [job] = some (job, []) := by
  rcases Option.isSome_iff_exists.mp
    (Scheduler.getNextJob_isSome sched (List.cons_ne_nil job [])) with ⟨⟨held, rest⟩, hg⟩
  have hperm := List.singleton_perm.mp (Scheduler.getNextJob_perm hg)
  rw [List.cons.injEq] at hperm
  rw [hg, ← hperm.1, ← hperm.2]

/-- Every job line is executed by some run, in whatever directory the engine is. -/
theorem executes_line (setup : Setup) (n dir : Nat) {line : Bytes} {cmd : Command}
    (h : parseJob line = some cmd) : ∃ t job,
      Lts.run (step setup) (init (n + 1) dir) (executing n line) = some t ∧
      t.alive = true ∧ t.cwd = dir ∧ t.pool.workers 0 = .executing job ∧ job.cmd = cmd ∧
      job.id ∈ t.remote := by
  have hne : line.isEmpty = false := by
    rw [Bool.eq_false_iff]
    intro hempty
    rw [List.isEmpty_iff.mp hempty, parseJob_nil] at h
    exact absurd h (by simp)
  let job : Job := {
    id := 1
    cmd := cmd
    resultPromise := some 1
    timeQuantum := setup.quantum 1 }
  let s₁ : State (n + 1) := { init (n + 1) dir with
    pool := { Pool.init (n + 1) with jobs := [job], accepted := [job] }
    nextJobId := 2
    remote := [1] }
  let s₂ : State (n + 1) := { s₁ with pool := Pool.setWorker s₁.pool 0 .dequeuing }
  let s₃ : State (n + 1) := { s₂ with
    pool := Pool.setWorker { s₂.pool with jobs := [] } 0 (.executing job) }
  have h₁ : step setup (init (n + 1) dir) (.daemonLine line none) = some s₁ := by
    simp [step, act, daemonLine, hne, h, submit, submission, Pool.step, init, Pool.init,
      Pool.enqueue, Pool.notifyOne, Pool.Submission.isNew, Pool.Submission.job, Scheduler.addJob,
      s₁, job]
  have h₂ : step setup s₁ (.pool (.testRunning 0)) = some s₂ := by
    simp [step, act, Pool.Action.ofLoop, Pool.step, s₁, s₂, init, Pool.init]
  have h₃ : step setup s₂ (.pool (.dequeue 0)) = some s₃ := by
    have hw : s₂.pool.workers 0 = .dequeuing := Pool.setWorker_workers_self _ _ _
    have halive : s₂.alive = true := rfl
    have hjobs : s₂.pool.jobs = [job] := rfl
    simp [step, act, halive, Pool.Action.ofLoop, Pool.step, hw, Pool.dequeue, hjobs,
      getNextJob_singleton, s₃]
  refine ⟨s₃, job, ?_, rfl, rfl, Pool.setWorker_workers_self _ _ _, rfl,
    List.mem_singleton.mpr rfl⟩
  simp only [executing, Lts.run, h₁, h₂, h₃]

/-! ## Runs whose lines come from a set -/

/-- An `exit` that a worker holds ends the engine. -/
theorem step_exit {w : Fin n} {job : Job} (halive : s.alive = true)
    (hw : s.pool.workers w = .executing job) (hexit : job.cmd.executable = ascii "exit") :
    step setup s (.builtin w none) = some { s with alive := false } := by
  have hne : job.cmd.isEmpty = false := by rw [Command.isEmpty, hexit]; decide
  have hb : job.cmd.isBuiltin = true := by simp [Command.isBuiltin, hexit]
  simp [step, act, halive, hw, builtin, hne, hb, handleBuiltin, hexit]

/-- A `cd` that a worker holds takes the engine where it leads. -/
theorem step_cd {w : Fin n} {job : Job} {path : Bytes} {d : Nat} (halive : s.alive = true)
    (hw : s.pool.workers w = .executing job) (hcd : job.cmd.executable = ascii "cd")
    (hpath : job.cmd.arguments[1]? = some path)
    (hleads : setup.leads s.cwd (cString path) (some d) = true) :
    ∃ t, step setup s (.builtin w (some d)) = some t ∧ t.cwd = d := by
  have hne : job.cmd.isEmpty = false := by rw [Command.isEmpty, hcd]; decide
  have hb : job.cmd.isBuiltin = true := by simp [Command.isBuiltin, hcd]
  have hexit : ascii "cd" ≠ ascii "exit" := by decide
  have hh : handleBuiltin setup s job.cmd (some d) = some (enter s d) := by
    unfold handleBuiltin
    rw [hcd, if_neg hexit, if_pos rfl, hpath]
    simp [hleads]
  have hpool : ∃ p, Pool.step setup.sched (enter s d).pool
      (.execute w { exitCode := 0, success := true } job.pid job.uniqueId) = some p := by
    have hw' : (enter s d).pool.workers w = .executing job := hw
    simp only [Pool.step, hw', Option.some.injEq, exists_eq']
  rcases hpool with ⟨p, hpool⟩
  refine ⟨{ enter s d with pool := p }, ?_, rfl⟩
  have hent : (enter s d).alive = true := halive
  simp only [step, act, halive, Action.ofProcess, Bool.or_false, if_true, hw, builtin, hne,
    Bool.false_eq_true, if_false, hb, hh, Option.bind_some, hent, returnResult, hpool,
    Option.map_some]

/-- Whatever else happens in the engine, the lines of the pipe and their jobs
    leave it running in its directory in every run exactly if every line that
    may arrive is harmless. -/
theorem untouched_iff_harmless (setup : Setup) (n : Nat) (allowed : Bytes → Prop) :
    (∀ (dir : Nat) (actions : List (Action (n + 1))),
      (∀ line wake, .daemonLine line wake ∈ actions → allowed line) →
      Lts.Along (step setup) (Untouched setup) (init (n + 1) dir) actions) ↔
      ∀ line, allowed line → Harmless setup line := by
  constructor
  · intro h line hline cmd hcmd
    -- the run that hands the line's job to a worker, and then one step of that worker
    have hat : ∀ (d : Nat) (outcome : Option Nat) (t u : State (n + 1)),
        Lts.run (step setup) (init (n + 1) d) (executing n line) = some t →
        step setup t (.builtin 0 outcome) = some u → Untouched setup t (.builtin 0 outcome) := by
      intro d outcome t u hrun hu
      refine Lts.along_at (h d (executing n line ++ [.builtin 0 outcome]) ?_) hrun hu
      intro line' wake hmem
      simp [executing] at hmem
      exact hmem.1 ▸ hline
    constructor
    · intro hexit
      rcases executes_line setup n 0 hcmd with ⟨t, job, hrun, halive, -, hw, rfl, hremote⟩
      have hstep : step setup t (.builtin 0 none) = some _ := step_exit halive hw hexit
      have hkept := (hat 0 none t _ hrun hstep).engine _ hstep ⟨job, hw, hremote⟩
      exact absurd (hkept.1.trans halive) (by simp)
    · intro hcd path hpath d e hleads
      rcases executes_line setup n d hcmd with ⟨t, job, hrun, halive, hdir, hw, rfl, hremote⟩
      rcases step_cd halive hw hcd hpath (hdir ▸ hleads) with ⟨u, hstep, hu⟩
      have hkept := (hat d (some e) t u hrun hstep).engine u hstep ⟨job, hw, hremote⟩
      rw [← hu, hkept.2, hdir]
  · intro h dir actions hactions
    have hreads : Lts.Along (step setup) (ReadsHarmless setup) (init (n + 1) dir) actions := by
      refine Lts.along_of_forall fun a ha s => ?_
      cases a with
      | daemonLine line wake => exact h line (hactions line wake ha)
      | _ => trivial
    exact Lts.along_of_along (I := Guarded setup)
      (fun _ _ _ hs hline hstep => guarded_of_step hs hline hstep)
      (fun _ _ _ hs _ hstep => untouched_of_step hs hstep) (guarded_init (n + 1) dir) hreads

/-- The line `{"executable":"exit","args":[]}` ends the engine. -/
theorem exit_line_ends : ¬ ∀ (setup : Setup) (n dir : Nat) (actions : List (Action (n + 1))),
    Lts.Along (step setup) (Untouched setup) (init (n + 1) dir) actions := by
  intro h
  let setup : Setup := ⟨.fcfs, fun _ => 0, fun _ => ([], []), fun _ _ _ => false⟩
  let line : Bytes := Utf8.encode (JsonText.print (Invocation.jobValue "exit".toList []))
  have hline : parseJob line = some
      { executable := Utf8.encode "exit".toList, arguments := [], isBackground := true } := by
    rw [parseJob, Invocation.parseText_jobValue, Option.bind_some, Invocation.commandOf_jobValue]
    rfl
  rcases executes_line setup 3 0 hline with ⟨t, job, hrun, halive, -, hw, hcmd, hremote⟩
  have hexit : job.cmd.executable = ascii "exit" := by rw [hcmd]; decide
  have hstep : step setup t (.builtin 0 none) = some _ := step_exit halive hw hexit
  have hat := Lts.along_at (h setup 3 0 (executing 3 line ++ [.builtin 0 none])) hrun hstep
  have hkept := hat.engine _ hstep ⟨job, hw, hremote⟩
  exact absurd (hkept.1.trans halive) (by simp)

end Engine

end Isolyx
