import Isolyx.Theory.ExactlyOnce
import Isolyx.Theory.RemoteJobs

/-!
# Foreground Jobs

What the user of the shell may rely on. The pool has several workers, the
scheduler may take the jobs in any order, and the daemon thread puts others in
between. Still, of the jobs that were typed without an `&`, no two are ever
executed at the same time, and their results are shown in the order in which
they were typed.

The reason is that the main thread waits for the promise of such a job before
it reads the next line. So at most one of them has a promise that is not set,
the one the main thread waits for, and it is the last of them (`Typed`). The
promise of a job that is executed or about to be reported is not set
(`unset_of_held`), so that one is it.

## Main definitions

* `Foreground`: A job that was typed without an `&`.
* `Advance`: What a step does to the main thread and to the pool.
* `Typed`: What every step preserves.
* `InOrder`: Foreground jobs run one after the other.

## Theorems

* `unset_of_held`: The promise of a job in a worker's hands is not set.
* `advance_of_step`: What a step does to the main thread and to the pool.
* `typed_advance`: Every step preserves the invariant.
* `foreground_in_order`: In every run, foreground jobs run one after the other.
-/

namespace Isolyx

namespace Pool

open Threads (tally le_tally exists_of_tally_pos tally_mono)

variable {n : Nat} {sched : Scheduler} {s t : State n}

/-- No other worker counts for a job that this one holds. -/
theorem tally_of_held (hi : Inv s) {w : Fin n} {job : Job} (hw : (s.workers w).job? = some job)
    {p : Worker → Bool} (hp : p (s.workers w) = false) :
    tally (stage p job.id) s.workers + s.completed.count job.id = 0 := by
  rcases inv_alone hi hw with ⟨_, hcompleted, hothers⟩
  rw [List.count_eq_zero.mpr hcompleted, Nat.add_zero, ← Nat.le_zero, ← not_lt]
  intro hpos
  rcases exists_of_tally_pos hpos with ⟨x, hx⟩
  by_cases hxw : x = w
  · rw [hxw, stage, hp] at hx
    exact absurd hx (Nat.lt_irrefl 0)
  · rcases job?_of_stage_pos hx with ⟨j, hj, hid⟩
    exact hothers x hxw j hj hid

/-- The promise of a job in a worker's hands is not set, if that worker has not
    set it. -/
theorem unset_of_held (hi : Inv s) {w : Fin n} {job a : Job}
    (hw : (s.workers w).job? = some job) (hearly : ∀ j, s.workers w ≠ .settled j)
    (ha : a ∈ s.accepted) (hid : a.id = job.id) {p : Nat} (hp : a.resultPromise = some p) :
    p ∉ s.satisfied := by
  intro hmem
  rcases hi.setLate p hmem with ⟨b, hb, hbp, hpos⟩
  have hsame : b.id = job.id := (hi.promises b hb a ha p hbp hp).trans hid
  rw [hsame] at hpos
  refine Nat.pos_iff_ne_zero.mp hpos (tally_of_held hi hw ?_)
  cases hv : s.workers w with
  | settled j => exact absurd hv (hearly j)
  | _ => rfl

/-- A job whose promise is set has been reported. -/
theorem returned_of_satisfied (hi : Inv s) {a : Job} (ha : a ∈ s.accepted) {p : Nat}
    (hp : a.resultPromise = some p) (hmem : p ∈ s.satisfied) : a.id ∈ s.returned := by
  rcases hi.setLate p hmem with ⟨b, hb, hbp, hpos⟩
  rw [hi.promises b hb a ha p hbp hp] at hpos
  have hle : tally (paid a.id) s.workers ≤ tally (reported a.id) s.workers :=
    tally_mono (fun v => stage_le (fun v hv => by cases v <;> first | rfl | exact hv) a.id v) _
  refine List.count_pos_iff.mp ?_
  rw [hi.reported a.id]
  omega

theorem accepted_of_filed (hi : Inv s) {i : Nat} (h : i ∈ s.submissions) :
    i ∈ s.accepted.map Job.id :=
  List.count_pos_iff.mp (Nat.lt_of_lt_of_le (List.count_pos_iff.mpr h) (count_submissions_le hi i))

theorem satisfied_mono {a : Action n} (h : Moves sched s a t) :
    ∀ p ∈ s.satisfied, p ∈ t.satisfied := by
  cases h with
  | pays => exact fun p hp => List.mem_cons_of_mem _ hp
  | _ => exact fun p hp => hp

end Pool

namespace Engine

open CommandLine (parseJob)

variable {n : Nat} {setup : Setup} {s t : State n} {a : Action n}

/-- A job that was typed without an `&`. -/
def Foreground (job : Job) : Prop := job.cmd.isBackground = false

theorem isBackground_of_parseJob {line : Bytes} {cmd : Command} (h : parseJob line = some cmd) :
    cmd.isBackground = true := by
  rw [parseJob, Option.bind_eq_some_iff] at h
  rcases h with ⟨v, _, h⟩
  cases v with
  | object ms =>
      simp only [CommandLine.commandOf, Option.bind_eq_some_iff, Option.map_eq_some_iff] at h
      rcases h with ⟨e, _, args, _, rfl⟩
      rfl
  | _ => simp only [CommandLine.commandOf, reduceCtorEq] at h

/-- What a step does to the main thread and to the pool, one constructor for
    each kind. -/
inductive Advance (setup : Setup) (s t : State n) : Prop
  | idle (hmain : t.main = s.main) (hpool : t.pool = s.pool)
  | works (b : Pool.Action n) (hmain : t.main = s.main)
      (hpool : Pool.Moves setup.sched s.pool b t.pool)
      (hb : ∀ sub wake, b ≠ .enqueue sub wake)
  | remote (cmd : Command) (wake : Option (Fin n)) (hmain : t.main = s.main)
      (hcmd : cmd.isBackground = true)
      (hpool : Pool.Moves setup.sched s.pool (.enqueue (submission setup s cmd) wake) t.pool)
  | typed (cmd : Command) (wake : Option (Fin n)) (hprompt : s.main = .atPrompt)
      (hmain : t.main = if cmd.isBackground then .atPrompt else .awaiting s.nextJobId)
      (hpool : Pool.Moves setup.sched s.pool (.enqueue (submission setup s cmd) wake) t.pool)
  | resumes (p : Nat) (hawaits : s.main = .awaiting p) (hset : p ∈ s.pool.satisfied)
      (hmain : t.main = .atPrompt) (hpool : t.pool = s.pool)
  | stops (hprompt : s.main = .atPrompt) (hmain : t.main = .stopping)
      (hpool : Pool.Moves setup.sched s.pool .clearRunning t.pool)

theorem Handles.main_eq {cmd : Command} (h : Handles setup s cmd t) : t.main = s.main := by
  cases h <;> rfl

theorem advance_of_step (h : step setup s a = some t) : Advance setup s t := by
  have hact := h
  rw [step, Option.ite_none_right_eq_some] at hact
  cases moves_of_step h with
  | skips | ignores | returns | quits => exact .idle rfl rfl
  | accepts line wake cmd u hparse hsub =>
      rcases submit_eq_some hsub with ⟨p, hpool, rfl⟩
      exact .remote cmd wake rfl (isBackground_of_parseJob hparse) (Pool.moves_of_step hpool)
  | interprets line outcome wake t hc hh => exact .idle hh.main_eq hh.pool_eq
  | submits line outcome wake main u hc hsub =>
      rcases submit_eq_some hsub with ⟨p, hpool, rfl⟩
      rw [Command.isProgram, Bool.and_eq_true, Bool.not_eq_true', Bool.not_eq_true'] at hc
      have hline := hact.2
      cases hprompt : s.main <;>
        simp only [act, hprompt, shellLine, hc.1, hc.2, Bool.false_eq_true, if_false,
          reduceCtorEq, hsub, Option.map_some, Option.some.injEq] at hline
      refine .typed (Parser.parseLine line) wake hprompt ?_ (Pool.moves_of_step hpool)
      exact (congrArg State.main hline).symm
  | resumes =>
      have hready := hact.2
      cases hawaits : s.main <;> simp only [act, hawaits, reduceCtorEq] at hready
      rw [Option.ite_none_right_eq_some] at hready
      exact .resumes _ hawaits hready.1 rfl rfl
  | stops p hpool =>
      have heof := hact.2
      cases hprompt : s.main <;> simp only [act, hprompt, reduceCtorEq] at heof
      exact .stops hprompt rfl (Pool.moves_of_step hpool)
  | loops b p hb hpool =>
      refine .works b rfl (Pool.moves_of_step hpool) fun sub wake heq => ?_
      rw [heq] at hb
      exact absurd hb Bool.false_ne_true
  | executes w outcome job res u v hw hc hh ht hret =>
      rcases returnResult_eq_some hret with ⟨p, hpool, rfl⟩
      exact .works _ hh.main_eq (Pool.moves_of_step (hh.pool_eq ▸ hpool))
        fun _ _ heq => by simp only [reduceCtorEq] at heq
  | bursts w b job u hw hc hb hburst =>
      rcases burst_eq_some hburst with ⟨j, -, rfl⟩
      exact .idle rfl rfl
  | ends w pid uniqueId job res u v hw hp hlive hret =>
      rcases live_eq_some hlive with ⟨j, -, rfl⟩
      rcases returnResult_eq_some hret with ⟨p, hpool, rfl⟩
      exact .works _ rfl (Pool.moves_of_step hpool)
        fun _ _ heq => by simp only [reduceCtorEq] at heq
  | lives i b u hb hlive =>
      rcases live_eq_some hlive with ⟨j, -, rfl⟩
      exact .idle rfl rfl

/-! ## The invariant -/

/-- The number of a job that was typed without an `&`. -/
def IsTyped (p : Pool.State n) (i : Nat) : Prop := ∃ a ∈ p.accepted, a.id = i ∧ Foreground a

/-- What every step preserves. -/
structure Typed (s : State n) : Prop where
  pool : Pool.Inv s.pool
  named : Pool.Holds (Pool.Accepted s.pool.accepted) s.pool
  promised : ∀ a ∈ s.pool.accepted, a.resultPromise = some a.id
  /-- The main thread waits for the one whose promise is not set. -/
  waits : ∀ a ∈ s.pool.accepted, Foreground a →
    a.id ∈ s.pool.satisfied ∨ s.main = .awaiting a.id
  last : ∀ p, s.main = .awaiting p → ∀ a ∈ s.pool.accepted, Foreground a → a.id ≤ p
  order : s.pool.submissions.Pairwise fun i j => IsTyped s.pool i → IsTyped s.pool j → j < i

theorem typed_init (n dir : Nat) : Typed (init n dir) where
  pool := Pool.inv_init
  named := ⟨fun _ h => absurd h List.not_mem_nil, fun w job hw => by
    simp only [init, Pool.init, Pool.Worker.job?, reduceCtorEq] at hw⟩
  promised _ h := absurd h List.not_mem_nil
  waits _ h := absurd h List.not_mem_nil
  last p h := by simp only [init, reduceCtorEq] at h
  order := List.Pairwise.nil

/-- A foreground job in a worker's hands is the one the main thread waits for,
    as long as the worker has not set its promise. -/
theorem awaiting_of_held (hi : Typed s) {w : Fin n} {job : Job}
    (hw : (s.pool.workers w).job? = some job) (hearly : ∀ j, s.pool.workers w ≠ .settled j)
    (hfore : IsTyped s.pool job.id) : s.main = .awaiting job.id := by
  rcases hfore with ⟨a, ha, hid, hfore⟩
  rcases hi.waits a ha hfore with hset | hawaits
  · exact absurd hset (Pool.unset_of_held hi.pool hw hearly ha hid (hi.promised a ha))
  · exact hid ▸ hawaits

/-- The pool moves on, and nothing is enqueued. -/
theorem order_works (hi : Typed s) {b : Pool.Action n} {p : Pool.State n}
    (h : Pool.Moves setup.sched s.pool b p) (hb : ∀ sub wake, b ≠ .enqueue sub wake) :
    p.submissions.Pairwise fun i j => IsTyped p i → IsTyped p j → j < i := by
  have haccepted := Pool.accepted_of_moves h hb
  have hsame : ∀ i, IsTyped p i ↔ IsTyped s.pool i := by
    intro i
    rw [IsTyped, IsTyped, haccepted]
  simp only [hsame]
  cases h with
  | files w job res hw =>
      refine List.pairwise_cons.mpr ⟨fun i hi' hjob htyped => ?_, hi.order⟩
      have hheld : (s.pool.workers w).job? = some job := by rw [hw]; rfl
      have hawaits := awaiting_of_held hi hheld
        (fun j => by rw [hw]; simp only [ne_eq, reduceCtorEq, not_false_eq_true]) hjob
      rcases htyped with ⟨a, ha, rfl, hfore⟩
      refine Nat.lt_of_le_of_ne (hi.last job.id hawaits a ha hfore) fun heq => ?_
      -- its own result was not filed before
      rw [heq] at hi'
      have hpos := List.count_pos_iff.mpr hi'
      rw [hi.pool.filed job.id] at hpos
      refine Nat.pos_iff_ne_zero.mp hpos (Pool.tally_of_held hi.pool hheld ?_)
      rw [hw]
  | enqueues sub wake => exact absurd rfl (hb sub wake)
  | _ => exact hi.order

/-- A job is accepted; no result has its number. -/
theorem order_accepts (hi : Typed s) {sub : Pool.Submission} {wake : Option (Fin n)}
    {p : Pool.State n} (h : Pool.Moves setup.sched s.pool (.enqueue sub wake) p) :
    p.submissions.Pairwise fun i j => IsTyped p i → IsTyped p j → j < i := by
  have hids := (Pool.inv_moves hi.pool h).ids
  rw [Pool.accepted_of_enqueue h, List.map_append, List.nodup_append] at hids
  have hold : ∀ i ∈ s.pool.submissions, IsTyped p i → IsTyped s.pool i := by
    rintro i hfiled ⟨a, ha, hid, hfore⟩
    rw [Pool.accepted_of_enqueue h] at ha
    rcases List.mem_append.mp ha with ha | ha
    · exact ⟨a, ha, hid, hfore⟩
    · have hne := hids.2.2 i (Pool.accepted_of_filed hi.pool hfiled) a.id
        (List.mem_map.mpr ⟨a, ha, rfl⟩)
      exact absurd hid.symm hne
  have hsubmissions : p.submissions = s.pool.submissions := by
    cases h with
    | enqueues => rfl
  rw [hsubmissions]
  exact hi.order.imp_of_mem fun hx hy hxy htx hty => hxy (hold _ hx htx) (hold _ hy hty)

/-- A job is accepted that the main thread waits for, if it is a foreground one. -/
theorem typed_accepts (hi : Typed s) (hc : Counted s) {cmd : Command} {wake : Option (Fin n)}
    (hpool : Pool.Moves setup.sched s.pool (.enqueue (submission setup s cmd) wake) t.pool)
    (hmain : t.main = s.main ∧ cmd.isBackground = true ∨ s.main = .atPrompt ∧
      t.main = if cmd.isBackground then .atPrompt else .awaiting s.nextJobId) : Typed t := by
  have haccepted := Pool.accepted_of_enqueue hpool
  have hmem : ∀ a ∈ t.pool.accepted, a ∈ s.pool.accepted ∨ a = (submission setup s cmd).job := by
    intro a ha
    rw [haccepted] at ha
    exact (List.mem_append.mp ha).imp_right List.mem_singleton.mp
  have hsatisfied := Pool.satisfied_mono hpool
  refine ⟨Pool.inv_moves hi.pool hpool, Pool.named_moves hi.named hpool, fun a ha => ?_,
    fun a ha hfore => ?_, fun p hp a ha hfore => ?_, order_accepts hi hpool⟩
  · rcases hmem a ha with ha | rfl
    · exact hi.promised a ha
    · rfl
  · rcases hmem a ha with ha | rfl
    · rcases hi.waits a ha hfore with hset | hawaits
      · exact .inl (hsatisfied _ hset)
      · rcases hmain with ⟨hsame, _⟩ | ⟨hprompt, _⟩
        · exact .inr (hsame.trans hawaits)
        · rw [hprompt] at hawaits
          simp only [reduceCtorEq] at hawaits
    · rcases hmain with ⟨_, hback⟩ | ⟨_, hnow⟩
      · exact absurd (hback.symm.trans hfore) (by simp only [reduceCtorEq, not_false_eq_true])
      · right
        rw [hnow, if_neg (by rw [show cmd.isBackground = false from hfore]; exact
          Bool.false_ne_true)]
        rfl
  · rcases hmain with ⟨hsame, hback⟩ | ⟨_, hnow⟩
    · rcases hmem a ha with ha | rfl
      · exact hi.last p (hsame ▸ hp) a ha hfore
      · exact absurd (hback.symm.trans hfore) (by simp only [reduceCtorEq, not_false_eq_true])
    · rw [hnow] at hp
      split at hp
      · simp only [reduceCtorEq] at hp
      · rw [Main.awaiting.injEq] at hp
        rcases hmem a ha with ha | rfl
        · exact hp ▸ Nat.le_of_lt (hc a ha).1
        · exact Nat.le_of_eq hp

theorem typed_advance (hi : Typed s) (hc : Counted s) (h : Advance setup s t) : Typed t := by
  cases h with
  | idle hmain hpool =>
      refine ⟨hpool ▸ hi.pool, hpool ▸ hi.named, hpool ▸ hi.promised, ?_, ?_, hpool ▸ hi.order⟩
      · rw [hmain, hpool]
        exact hi.waits
      · rw [hmain, hpool]
        exact hi.last
  | works b hmain hpool hb =>
      have haccepted := Pool.accepted_of_moves hpool hb
      refine ⟨Pool.inv_moves hi.pool hpool, Pool.named_moves hi.named hpool,
        haccepted ▸ hi.promised, ?_, ?_, order_works hi hpool hb⟩
      · rw [hmain, haccepted]
        exact fun a ha hfore => (hi.waits a ha hfore).imp_left (Pool.satisfied_mono hpool _)
      · rw [hmain, haccepted]
        exact hi.last
  | remote cmd wake hmain hcmd hpool => exact typed_accepts hi hc hpool (.inl ⟨hmain, hcmd⟩)
  | typed cmd wake hprompt hmain hpool => exact typed_accepts hi hc hpool (.inr ⟨hprompt, hmain⟩)
  | resumes p hawaits hset hmain hpool =>
      refine ⟨hpool ▸ hi.pool, hpool ▸ hi.named, hpool ▸ hi.promised, ?_, ?_, hpool ▸ hi.order⟩
      · rw [hpool]
        intro a ha hfore
        rcases hi.waits a ha hfore with hdone | hthis
        · exact .inl hdone
        · rw [hawaits, Main.awaiting.injEq] at hthis
          exact .inl (hthis ▸ hset)
      · rw [hmain]
        exact fun p hp => by simp only [reduceCtorEq] at hp
  | stops hprompt hmain hpool =>
      have hnew : ∀ sub wake, (Pool.Action.clearRunning : Pool.Action n) ≠ .enqueue sub wake :=
        fun _ _ h => by simp only [reduceCtorEq] at h
      have haccepted := Pool.accepted_of_moves hpool hnew
      refine ⟨Pool.inv_moves hi.pool hpool, Pool.named_moves hi.named hpool,
        haccepted ▸ hi.promised, ?_, ?_, order_works hi hpool hnew⟩
      · rw [haccepted]
        intro a ha hfore
        rcases hi.waits a ha hfore with hset | hawaits
        · exact .inl (Pool.satisfied_mono hpool _ hset)
        · rw [hprompt] at hawaits
          simp only [reduceCtorEq] at hawaits
      · rw [hmain]
        exact fun p hp => by simp only [reduceCtorEq] at hp

theorem typed_run {dir : Nat} {actions : List (Action n)}
    (h : Lts.run (step setup) (init n dir) actions = some s) : Typed s ∧ Counted s :=
  Lts.run_invariant (P := fun s => Typed s ∧ Counted s)
    (fun _ _ _ hi hs => ⟨typed_advance hi.1 hi.2 (advance_of_step hs), counted_of_step hi.2 hs⟩)
    ⟨typed_init n dir, fun _ ha => absurd ha List.not_mem_nil⟩ h

/-- Foreground jobs run one after the other. -/
structure InOrder (s : State n) : Prop where
  /-- When the shell reads a line, all that were typed before are done. -/
  settled : (∀ p, s.main ≠ .awaiting p) → ∀ a ∈ s.pool.accepted, Foreground a →
    a.id ∈ s.pool.returned ∧ a.id ∈ s.pool.satisfied
  /-- No two are executed at the same time. -/
  alone : ∀ w x job job', s.pool.workers w = .executing job → s.pool.workers x = .executing job' →
    Foreground job → Foreground job' → w = x
  /-- Their results are shown in the order of their numbers; the newest is first. -/
  order : s.pool.submissions.Pairwise fun i j => IsTyped s.pool i → IsTyped s.pool j → j < i

/-- For any scheduler, any number of workers, any lines from the shell and the
    command pipe, and any interleaving. -/
theorem foreground_in_order (setup : Setup) (n dir : Nat) (actions : List (Action n))
    (s : State n) (h : Lts.run (step setup) (init n dir) actions = some s) : InOrder s := by
  have hi := (typed_run h).1
  refine ⟨fun hprompt a ha hfore => ?_, fun w x job job' hw hx hfore hfore' => ?_, hi.order⟩
  · rcases hi.waits a ha hfore with hset | hawaits
    · exact ⟨Pool.returned_of_satisfied hi.pool ha (hi.promised a ha) hset, hset⟩
    · exact absurd hawaits (hprompt a.id)
  · have hawaits : ∀ {y : Fin n} {j : Job}, s.pool.workers y = .executing j → Foreground j →
        s.main = .awaiting j.id := by
      intro y j hy hj
      have hheld : (s.pool.workers y).job? = some j := by rw [hy]; rfl
      rcases hi.named.inHands y j hheld with ⟨a, ha, hid, hcmd⟩
      refine awaiting_of_held hi hheld (fun k => ?_) ⟨a, ha, hid, ?_⟩
      · rw [hy]
        simp only [ne_eq, reduceCtorEq, not_false_eq_true]
      · rw [Foreground, hcmd]
        exact hj
    have hid : job.id = job'.id := by
      have hsame := (hawaits hw hfore).symm.trans (hawaits hx hfore')
      rw [Main.awaiting.injEq] at hsame
      exact hsame
    -- the main thread waits for one job, and one worker has it
    by_contra hne
    have hheld : (s.pool.workers w).job? = some job := by rw [hw]; rfl
    exact (Pool.inv_alone hi.pool hheld).2.2 x (Ne.symm hne) job' (by rw [hx]; rfl) hid.symm

/-- A job is typed, runs and exits while a worker executes one of the command
    pipe, and then another one is typed. -/
theorem foreground_in_order_two : ∃ s : State 2, s.main = .awaiting 3 ∧
    s.pool.submissions = [2] ∧ InOrder s := by
  let setup : Setup := ⟨.fcfs, fun _ => 0, fun _ => ([], []), fun _ _ _ => false⟩
  let actions : List (Action 2) := [.pool (.testRunning 0), .pool (.testRunning 1),
    .daemonLine (ascii "\x7b\"executable\":\"/a\"\x7d") none, .pool (.dequeue 0),
    .shellLine (ascii "b") none none, .pool (.dequeue 1), .burst 0 .dequeue, .burst 1 .dequeue,
    .burst 1 .clone, .burst 1 .applyToPid, .burst 1 .startWatchdog, .burst 1 .sync,
    .process 2 (.exits 0), .burst 1 .waitpid, .burst 1 .collect, .burst 1 .destroyWatchdog,
    .endBurst 1 100 1, .pool (.callSubmitResult 1), .pool (.returnFromSubmitResult 1),
    .pool (.setPromise 1), .futureReady, .shellLine (ascii "c") none none]
  have hrun : (Lts.run (step setup) (init 2 0) actions).map
      (fun s => (s.main, s.pool.submissions)) = some (.awaiting 3, [2]) := by decide +kernel
  rcases Option.map_eq_some_iff.mp hrun with ⟨s, hs, hend⟩
  rw [Prod.mk.injEq] at hend
  exact ⟨s, hend.1, hend.2, foreground_in_order setup 2 0 actions s hs⟩

end Engine

end Isolyx
