import Isolyx.Core.Processes
import Isolyx.Theory.ExactlyOnce

/-!
# One Process for Each Job

However often a job is preempted and by whichever workers it is executed, one
process is launched for it, and its output is written and read under one
number.

What decides between launching and resuming is the `pid` a job carries, and
that is a field of an object that moves from the deque to a worker and back.
So the invariant says of every job object how it stands (`Fresh`, `Numbered`,
`Alive`, `Reaped`), with respect to the books: the numbers drawn, the launches
and the kernel's table of children. A job in the deque is fresh or has been
preempted, and then its process is alive (`Queued`).

Every step of a worker in `execute` writes entries of its own job only, and
nobody else has a job with that id (`inv_alone`). That is why all other jobs
stand as they stood before (`SameFor`).

A number is positive as long as `file_counter` has not wrapped, which takes as
many launches as there are positive numbers.

## Main definitions

* `Fresh`, `Numbered`, `Alive`, `Reaped`, `Settled`: How a job stands.
* `SameFor`: The books say the same of a job.
* `Books`: What the books say of one another.
* `Inv`: What every step preserves.
* `OneProcess`: One process and one number for each job.

## Theorems

* `inv_own`: A worker in `execute` moves on.
* `inv_pool`: So does the pool around it.
* `inv_moves`: Every step preserves the invariant.
* `one_process`: Every job has one process and one number.
-/

namespace Isolyx

namespace Processes

open Lifecycle (WaitStatus resultOf)
open Pool (Worker setWorker notifyOne notifyAll genuine_accepted inv_alone)

variable {n : Nat} {sched : Scheduler} {s t : State n}

/-! ## How a job stands -/

/-- Nothing was done for the job. -/
structure Fresh (s : State n) (job : Job) : Prop where
  pid : job.pid ≤ 0
  uniqueId : job.uniqueId = 0
  unnumbered : ∀ u, (job.id, u) ∉ s.numbers
  unpreempted : job.id ∉ s.preempted

/-- The job has a number and was not launched. -/
structure Numbered (s : State n) (job : Job) : Prop where
  number : (job.id, job.uniqueId) ∈ s.numbers
  unlaunched : ∀ u, (job.id, u) ∉ s.launched

/-- The job was launched, and its process was not reaped. -/
structure Alive (s : State n) (job : Job) : Prop where
  pid : 0 < job.pid
  number : (job.id, job.uniqueId) ∈ s.launched
  child : ⟨job.pid, job.id⟩ ∈ s.children

/-- The job was launched, and its process was reaped. -/
structure Reaped (s : State n) (job : Job) : Prop where
  number : (job.id, job.uniqueId) ∈ s.launched
  childless : ∀ pid, ⟨pid, job.id⟩ ∉ s.children

/-- The job carries its number and its pid, if it has them. -/
structure Settled (s : State n) (job : Job) : Prop where
  number : ∀ u, (job.id, u) ∈ s.launched → job.uniqueId = u
  child : ∀ pid, ⟨pid, job.id⟩ ∈ s.children → job.pid = pid

/-- How a job in the deque stands. -/
def Queued (s : State n) (job : Job) : Prop :=
  Fresh s job ∨ (Alive s job ∧ job.id ∈ s.preempted)

/-- How the job of a worker in `execute` stands. -/
def InCall (s : State n) (job : Job) : Call → Prop
  | .outside => Queued s job
  | .launching => Fresh s job
  | .numbered => Numbered s job
  | .waiting => Alive s job
  | .collecting res => Reaped s job ∧ res.preempted = false
  | .returning res => if res.preempted then Alive s job else Settled s job

/-- How the job of a worker stands; only in `execute` it is in a call. -/
def AtWorker (s : State n) : Worker → Call → Prop
  | .executing job, c => InCall s job c
  | .requeueing job, c => c = .outside ∧ Alive s job ∧ job.id ∈ s.preempted
  | .finished job _, c | .submitting job _, c | .submitted job _, c | .settled job, c =>
      c = .outside ∧ Settled s job
  | .atLoopHead, c | .dequeuing, c | .waiting, c | .gone, c => c = .outside

/-! ## The books -/

/-- What the books say of one another. -/
structure Books (s : State n) : Prop where
  counter : s.fileCounter = int32 ((s.numbers.length : Int) + 1)
  drawn : s.numbers.map Prod.snd
    = (List.range s.numbers.length).map fun k : Nat => int32 ((k : Int) + 1)
  numberedOnce : (s.numbers.map Prod.fst).Nodup
  launchedOnce : (s.launched.map Prod.fst).Nodup
  launched : ∀ e ∈ s.launched, e ∈ s.numbers
  children : ∀ c ∈ s.children, c.job ∈ s.launched.map Prod.fst
  pids : (s.children.map Child.pid).Nodup
  jobs : (s.children.map Child.job).Nodup
  numbers : ∀ e ∈ s.numbers, e.1 ∈ s.pool.accepted.map Job.id
  preempted : ∀ i ∈ s.preempted, i ∈ s.pool.accepted.map Job.id
  collected : ∀ e ∈ s.collected, e ∈ s.launched

theorem Books.not_launched (hb : Books s) {i : Nat} (h : ∀ u, (i, u) ∉ s.numbers) :
    ∀ u, (i, u) ∉ s.launched := fun u hu => h u (hb.launched _ hu)

theorem Books.childless (hb : Books s) {i : Nat} (h : ∀ u, (i, u) ∉ s.launched) :
    ∀ pid, ⟨pid, i⟩ ∉ s.children := by
  intro pid hc
  rcases List.mem_map.mp (hb.children _ hc) with ⟨⟨j, u⟩, he, rfl⟩
  exact h u he

theorem Books.number_eq (hb : Books s) {i : Nat} {u u' : Int} (h : (i, u) ∈ s.launched)
    (h' : (i, u') ∈ s.launched) : u = u' :=
  congrArg Prod.snd (List.inj_on_of_nodup_map hb.launchedOnce h h' rfl)

theorem Books.pid_eq (hb : Books s) {i : Nat} {pid pid' : Int} (h : ⟨pid, i⟩ ∈ s.children)
    (h' : ⟨pid', i⟩ ∈ s.children) : pid = pid' :=
  congrArg Child.pid (List.inj_on_of_nodup_map hb.jobs h h' rfl)

theorem Books.job_eq (hb : Books s) {i i' : Nat} {pid : Int} (h : ⟨pid, i⟩ ∈ s.children)
    (h' : ⟨pid, i'⟩ ∈ s.children) : i = i' :=
  congrArg Child.job (List.inj_on_of_nodup_map hb.pids h h' rfl)

theorem settled_of_unlaunched (hb : Books s) {job : Job} (h : ∀ u, (job.id, u) ∉ s.launched) :
    Settled s job :=
  ⟨fun u hu => absurd hu (h u), fun pid hc => absurd hc (hb.childless h pid)⟩

theorem settled_of_fresh (hb : Books s) {job : Job} (h : Fresh s job) : Settled s job :=
  settled_of_unlaunched hb (hb.not_launched h.unnumbered)

theorem settled_of_alive (hb : Books s) {job : Job} (h : Alive s job) : Settled s job :=
  ⟨fun _ hu => hb.number_eq h.number hu, fun _ hc => hb.pid_eq h.child hc⟩

theorem settled_of_reaped (hb : Books s) {job : Job} (h : Reaped s job) : Settled s job :=
  ⟨fun _ hu => hb.number_eq h.number hu, fun pid hc => absurd hc (h.childless pid)⟩

theorem settled_of_queued (hb : Books s) {job : Job} (h : Queued s job) : Settled s job :=
  h.elim (settled_of_fresh hb) fun ha => settled_of_alive hb ha.1

/-- The books of `t` say of a job what those of `s` say. -/
structure SameFor (s t : State n) (i : Nat) : Prop where
  numbers : ∀ u, (i, u) ∈ t.numbers ↔ (i, u) ∈ s.numbers
  launched : ∀ u, (i, u) ∈ t.launched ↔ (i, u) ∈ s.launched
  children : ∀ pid, ⟨pid, i⟩ ∈ t.children ↔ ⟨pid, i⟩ ∈ s.children
  preempted : i ∈ t.preempted ↔ i ∈ s.preempted

theorem sameFor_of_eq {i : Nat} (hn : t.numbers = s.numbers) (hl : t.launched = s.launched)
    (hc : t.children = s.children) (hp : t.preempted = s.preempted) : SameFor s t i := by
  refine ⟨fun u => ?_, fun u => ?_, fun pid => ?_, ?_⟩
  · rw [hn]
  · rw [hl]
  · rw [hc]
  · rw [hp]

theorem Fresh.same {job : Job} (hs : SameFor s t job.id) (h : Fresh s job) : Fresh t job :=
  ⟨h.pid, h.uniqueId, fun u hu => h.unnumbered u ((hs.numbers u).mp hu),
    fun hp => h.unpreempted (hs.preempted.mp hp)⟩

theorem Alive.same {job : Job} (hs : SameFor s t job.id) (h : Alive s job) : Alive t job :=
  ⟨h.pid, (hs.launched _).mpr h.number, (hs.children _).mpr h.child⟩

theorem Settled.same {job : Job} (hs : SameFor s t job.id) (h : Settled s job) : Settled t job :=
  ⟨fun u hu => h.number u ((hs.launched u).mp hu),
    fun pid hc => h.child pid ((hs.children pid).mp hc)⟩

theorem Queued.same {job : Job} (hs : SameFor s t job.id) (h : Queued s job) : Queued t job :=
  h.imp (Fresh.same hs) fun ha => ⟨ha.1.same hs, hs.preempted.mpr ha.2⟩

theorem InCall.same {job : Job} (hs : SameFor s t job.id) {c : Call} (h : InCall s job c) :
    InCall t job c := by
  cases c with
  | outside => exact Queued.same hs h
  | launching => exact Fresh.same hs h
  | numbered =>
      exact ⟨(hs.numbers _).mpr h.number, fun u hu => h.unlaunched u ((hs.launched u).mp hu)⟩
  | waiting => exact Alive.same hs h
  | collecting res =>
      exact ⟨⟨(hs.launched _).mpr h.1.number,
        fun pid hc => h.1.childless pid ((hs.children pid).mp hc)⟩, h.2⟩
  | returning res =>
      simp only [InCall] at h ⊢
      split at h
      · rename_i hp
        rw [if_pos hp]
        exact h.same hs
      · rename_i hp
        rw [if_neg hp]
        exact h.same hs

theorem AtWorker.same {v : Worker} {c : Call} (hs : ∀ job, v.job? = some job → SameFor s t job.id)
    (h : AtWorker s v c) : AtWorker t v c := by
  cases v with
  | executing job => exact InCall.same (hs job rfl) h
  | requeueing job => exact ⟨h.1, h.2.1.same (hs job rfl), (hs job rfl).preempted.mpr h.2.2⟩
  | finished job res | submitting job res | submitted job res | settled job =>
      exact ⟨h.1, h.2.same (hs job rfl)⟩
  | atLoopHead | dequeuing | waiting | gone => exact h

/-! ## The invariant -/

/-- What every step preserves. -/
structure Inv (s : State n) : Prop where
  pool : Pool.Inv s.pool
  books : Books s
  queued : ∀ job ∈ s.pool.jobs, Queued s job
  workers : ∀ w, AtWorker s (s.pool.workers w) (s.calls w)

theorem inv_init : Inv (init n) where
  pool := Pool.inv_init
  books := {
    counter := (int32_of_fits (x := 1) (by decide)).symm
    drawn := rfl
    numberedOnce := List.nodup_nil
    launchedOnce := List.nodup_nil
    launched := fun _ h => absurd h List.not_mem_nil
    children := fun _ h => absurd h List.not_mem_nil
    pids := List.nodup_nil
    jobs := List.nodup_nil
    numbers := fun _ h => absurd h List.not_mem_nil
    preempted := fun _ h => absurd h List.not_mem_nil
    collected := fun _ h => absurd h List.not_mem_nil }
  queued _ h := absurd h List.not_mem_nil
  workers _ := rfl

/-- A worker in `execute` writes into the books of its own job, and all other
    jobs stand as they stood. -/
theorem inv_own (hi : Inv s) {w : Fin n} {job : Job}
    (hw : s.pool.workers w = .executing job) (hpool : Pool.Inv t.pool) (hbooks : Books t)
    (hjobs : t.pool.jobs = s.pool.jobs)
    (hothers : ∀ x, x ≠ w → t.pool.workers x = s.pool.workers x ∧ t.calls x = s.calls x)
    (hsame : ∀ i, i ≠ job.id → SameFor s t i)
    (hat : AtWorker t (t.pool.workers w) (t.calls w)) : Inv t where
  pool := hpool
  books := hbooks
  queued j hj := by
    rw [hjobs] at hj
    have halone := (inv_alone hi.pool (w := w) (by rw [hw]; rfl)).1
    exact Queued.same (hsame j.id fun he => halone (List.mem_map.mpr ⟨j, hj, he⟩)) (hi.queued j hj)
  workers x := by
    by_cases hx : x = w
    · rw [hx]
      exact hat
    · rw [(hothers x hx).1, (hothers x hx).2]
      have halone := (inv_alone hi.pool (w := w) (by rw [hw]; rfl)).2.2 x hx
      exact AtWorker.same (fun j hj => hsame j.id (halone j hj)) (hi.workers x)

/-- A worker in `execute` moves on, and the books stay as they are. -/
theorem inv_setCall (hi : Inv s) {w : Fin n} {job : Job} {c : Call}
    (hw : s.pool.workers w = .executing job) (hat : InCall s job c) : Inv (setCall s w c) := by
  refine inv_own hi hw hi.pool { hi.books with } rfl (fun x hx => ⟨rfl, ?_⟩)
    (fun i _ => sameFor_of_eq rfl rfl rfl rfl) ?_
  · exact Function.update_of_ne hx c s.calls
  · simp only [setCall, Function.update_self, hw]
    exact AtWorker.same (s := s) (v := .executing job)
      (fun j _ => sameFor_of_eq rfl rfl rfl rfl) hat

/-- `execute` returns, and the books stay as they are. -/
theorem inv_return (hi : Inv s) {w : Fin n} {job : Job} {v : Worker}
    (hw : s.pool.workers w = .executing job) (hpool : Pool.Inv (setWorker s.pool w v))
    (preempted : List Nat) (hpre : preempted = s.preempted ∨ preempted = job.id :: s.preempted)
    (hat : AtWorker { s with preempted := preempted } v .outside) :
    Inv { setCall s w .outside with
      pool := setWorker s.pool w v, preempted := preempted } := by
  have hmem : ∀ i ∈ preempted, i = job.id ∨ i ∈ s.preempted := by
    rintro i hmem
    rcases hpre with rfl | rfl
    · exact .inr hmem
    · exact List.mem_cons.mp hmem
  refine inv_own hi hw hpool { hi.books with preempted := fun i h => ?_ } rfl
    (fun x hx => ⟨Pool.setWorker_workers_other s.pool w x v hx, Function.update_of_ne hx _ _⟩)
    (fun i hne => ⟨fun _ => .rfl, fun _ => .rfl, fun _ => .rfl, ?_⟩) ?_
  · rcases hmem i h with rfl | h
    · exact genuine_accepted (hi.pool.inHands w job (by rw [hw]; rfl))
    · exact hi.books.preempted i h
  · refine ⟨fun h => (hmem i h).resolve_left hne, fun h => ?_⟩
    rcases hpre with rfl | rfl
    · exact h
    · exact List.mem_cons_of_mem _ h
  · simp only [Pool.setWorker_workers_self, setCall, Function.update_self]
    exact AtWorker.same (s := { s with preempted := preempted })
      (fun j _ => sameFor_of_eq rfl rfl rfl rfl) hat

/-- A worker in `execute` moves on with its job. What it may have written into
    the job is nothing the pool's invariant reads. -/
theorem pool_moves (hi : Inv s) {w : Fin n} {job : Job} {v : Worker}
    (hw : s.pool.workers w = .executing job) (ha : Pool.Alike (.executing job) v)
    (pid uniqueId : Int) (hv : v.job? = some { job with pid := pid, uniqueId := uniqueId }) :
    Pool.Inv (setWorker s.pool w v) := by
  refine Pool.inv_setWorker hi.pool hw ha fun j hj => ?_
  rw [hv, Option.some.injEq] at hj
  rw [← hj]
  exact hi.pool.inHands w job (by rw [hw]; rfl)

theorem inv_setJob (hi : Inv s) {w : Fin n} {job : Job}
    (hw : s.pool.workers w = .executing job) (pid uniqueId : Int) :
    Pool.Inv (setWorker s.pool w (.executing { job with pid := pid, uniqueId := uniqueId })) :=
  pool_moves hi hw ⟨fun _ => rfl, fun _ => rfl, fun _ => rfl, fun _ => rfl⟩ pid uniqueId rfl

theorem accepted_of_executing (hi : Inv s) {w : Fin n} {job : Job}
    (hw : s.pool.workers w = .executing job) : job.id ∈ s.pool.accepted.map Job.id :=
  genuine_accepted (hi.pool.inHands w job (by rw [hw]; rfl))

theorem inCall_of_executing (hi : Inv s) {w : Fin n} {job : Job} {c : Call}
    (hw : s.pool.workers w = .executing job) (hc : s.calls w = c) : InCall s job c := by
  have hat := hi.workers w
  rw [hw, hc] at hat
  exact hat

theorem int32_succ (x : Int) : int32 (int32 x + 1) = int32 (x + 1) := by
  rw [int32, int32, int32, Int.bmod_add_bmod]

/-- The next number is drawn for a fresh job. -/
theorem inv_draws (hi : Inv s) {w : Fin n} {job : Job}
    (hw : s.pool.workers w = .executing job) (hfresh : Fresh s job) :
    Inv { setCall (setJob s w { job with uniqueId := s.fileCounter }) w .numbered with
      fileCounter := int32 (s.fileCounter + 1)
      numbers := s.numbers ++ [(job.id, s.fileCounter)] } := by
  have hacc := accepted_of_executing hi hw
  have hnew : job.id ∉ s.numbers.map Prod.fst := by
    intro hmem
    rcases List.mem_map.mp hmem with ⟨⟨i, u⟩, he, rfl⟩
    exact hfresh.unnumbered u he
  refine inv_own hi hw (inv_setJob hi hw job.pid s.fileCounter)
    { hi.books with
      counter := ?_
      drawn := ?_
      numberedOnce := ?_
      launched := fun e he => List.mem_append_left _ (hi.books.launched e he)
      numbers := fun e he => ?_ } rfl
    (fun x hx => ⟨Pool.setWorker_workers_other s.pool w x _ hx, Function.update_of_ne hx _ _⟩)
    (fun i hne => ⟨fun u => ?_, fun _ => .rfl, fun _ => .rfl, .rfl⟩) ?_
  · rw [hi.books.counter, int32_succ, List.length_append, List.length_singleton, Int.natCast_add,
      Int.natCast_one]
  · rw [List.map_append, hi.books.drawn, List.length_append, List.length_singleton,
      List.range_succ, List.map_append, List.map_singleton, List.map_singleton, hi.books.counter]
  · rw [List.map_append, List.map_singleton]
    exact hi.books.numberedOnce.append (List.nodup_singleton _)
      (List.disjoint_singleton.mpr hnew)
  · rcases List.mem_append.mp he with he | he
    · exact hi.books.numbers e he
    · rw [List.mem_singleton.mp he]
      exact hacc
  · rw [List.mem_append, List.mem_singleton, Prod.mk.injEq]
    exact ⟨fun h => h.resolve_right fun he => hne he.1, .inl⟩
  · simp only [setJob, Pool.setWorker_workers_self, setCall, Function.update_self]
    exact ⟨List.mem_append_right _ (List.mem_singleton_self _),
      hi.books.not_launched hfresh.unnumbered⟩

/-- A process is cloned for a job that has none. -/
theorem inv_clones (hi : Inv s) {w : Fin n} {job : Job} {pid : Int}
    (hw : s.pool.workers w = .executing job) (hjob : Numbered s job) (hpos : 0 < pid)
    (hnew : pid ∉ s.children.map Child.pid) :
    Inv { setCall (setJob s w { job with pid := pid }) w .waiting with
      children := ⟨pid, job.id⟩ :: s.children
      launched := (job.id, job.uniqueId) :: s.launched } := by
  have hchild := hi.books.childless hjob.unlaunched
  refine inv_own hi hw (inv_setJob hi hw pid job.uniqueId)
    { hi.books with
      launchedOnce := List.nodup_cons.mpr ⟨fun hmem => ?_, hi.books.launchedOnce⟩
      launched := fun e he => ?_
      children := fun c hc => ?_
      pids := List.nodup_cons.mpr ⟨hnew, hi.books.pids⟩
      jobs := List.nodup_cons.mpr ⟨fun hmem => ?_, hi.books.jobs⟩
      collected := fun e he => List.mem_cons_of_mem _ (hi.books.collected e he) } rfl
    (fun x hx => ⟨Pool.setWorker_workers_other s.pool w x _ hx, Function.update_of_ne hx _ _⟩)
    (fun i hne => ⟨fun _ => .rfl, fun u => ?_, fun p => ?_, .rfl⟩) ?_
  · rcases List.mem_map.mp hmem with ⟨⟨i, u⟩, he, hid⟩
    simp only at hid
    exact hjob.unlaunched u (hid ▸ he)
  · rcases List.mem_cons.mp he with rfl | he
    · exact hjob.number
    · exact hi.books.launched e he
  · rcases List.mem_cons.mp hc with rfl | hc
    · exact List.mem_cons_self
    · exact List.mem_cons_of_mem _ (hi.books.children c hc)
  · rcases List.mem_map.mp hmem with ⟨⟨p, i⟩, hc, hid⟩
    simp only at hid
    exact hchild p (hid ▸ hc)
  · rw [List.mem_cons, Prod.mk.injEq]
    exact ⟨fun h => h.resolve_left fun he => hne he.1, .inr⟩
  · rw [List.mem_cons, Child.mk.injEq]
    exact ⟨fun h => h.resolve_left fun he => hne he.2, .inr⟩
  · simp only [setJob, Pool.setWorker_workers_self, setCall, Function.update_self]
    exact ⟨hpos, List.mem_cons_self, List.mem_cons_self⟩

/-- The wait reaps the process of the job it waits for. -/
theorem inv_reaps (hi : Inv s) {w : Fin n} {job : Job}
    (hw : s.pool.workers w = .executing job) (hjob : Alive s job) (status : WaitStatus) :
    Inv { setCall s w (.collecting (resultOf status)) with
      children := s.children.filter fun c => c.pid ≠ job.pid } := by
  have hsub : (s.children.filter fun c => c.pid ≠ job.pid).Sublist s.children :=
    List.filter_sublist
  have hmem : ∀ c, c ∈ s.children.filter (fun c => c.pid ≠ job.pid) ↔
      c ∈ s.children ∧ c.pid ≠ job.pid := by
    intro c
    rw [List.mem_filter, decide_eq_true_eq]
  refine inv_own hi hw hi.pool
    { hi.books with
      children := fun c hc => hi.books.children c (hsub.subset hc)
      pids := hi.books.pids.sublist (hsub.map _)
      jobs := hi.books.jobs.sublist (hsub.map _) } rfl
    (fun x hx => ⟨rfl, Function.update_of_ne hx _ _⟩)
    (fun i hne => ⟨fun _ => .rfl, fun _ => .rfl, fun p => ?_, .rfl⟩) ?_
  · rw [hmem]
    -- a child of this pid is the child of this job
    exact ⟨fun h => h.1, fun h => ⟨h, fun hp => hne (hi.books.job_eq (hp ▸ h) hjob.child)⟩⟩
  · simp only [setCall, Function.update_self, hw]
    refine ⟨⟨hjob.number, fun p hc => ?_⟩, by cases status <;> rfl⟩
    rcases (hmem _).mp hc with ⟨hc, hp⟩
    exact hp (hi.books.pid_eq hc hjob.child)

/-! ## The pool around the calls -/

/-- A step of the pool leaves the books as they are. -/
theorem inv_pool (hi : Inv s) {p : Pool.State n} (hpool : Pool.Inv p)
    (hacc : ∀ i ∈ s.pool.accepted.map Job.id, i ∈ p.accepted.map Job.id)
    (hqueued : ∀ job ∈ p.jobs, Queued s job)
    (hworkers : ∀ w, AtWorker s (p.workers w) (s.calls w)) :
    Inv { s with pool := p } where
  pool := hpool
  books := { hi.books with
    numbers := fun e he => hacc e.1 (hi.books.numbers e he)
    preempted := fun i h => hacc i (hi.books.preempted i h) }
  queued job hjob := Queued.same (s := s) (sameFor_of_eq rfl rfl rfl rfl) (hqueued job hjob)
  workers w := AtWorker.same (s := s) (fun _ _ => sameFor_of_eq rfl rfl rfl rfl) (hworkers w)

theorem atWorker_setWorker (hi : Inv s) {w : Fin n} {v : Worker} (hv : AtWorker s v (s.calls w)) :
    ∀ x, AtWorker s ((setWorker s.pool w v).workers x) (s.calls x) := by
  intro x
  rw [Pool.workers_setWorker]
  split
  · rename_i hx
    rw [hx]
    exact hv
  · exact hi.workers x

theorem atWorker_notifyOne {ws ws' : Fin n → Worker} {wake : Option (Fin n)}
    (hwake : notifyOne ws wake = some ws') (h : ∀ x, AtWorker s (ws x) (s.calls x)) :
    ∀ x, AtWorker s (ws' x) (s.calls x) := by
  intro x
  have hx := h x
  cases wake with
  | none =>
      simp only [notifyOne, Option.ite_none_left_eq_some, Option.some.injEq] at hwake
      rw [← hwake.2]
      exact hx
  | some w =>
      simp only [notifyOne, Option.ite_none_right_eq_some, Option.some.injEq] at hwake
      rw [← hwake.2]
      by_cases he : x = w
      · rw [he, hwake.1] at hx
        rw [he, Function.update_self]
        exact hx
      · rw [Function.update_of_ne he]
        exact hx

theorem atWorker_notifyAll (hi : Inv s) :
    ∀ x, AtWorker s (notifyAll s.pool.workers x) (s.calls x) := by
  intro x
  have hx := hi.workers x
  simp only [notifyAll]
  split
  · rename_i hw
    rw [hw] at hx
    exact hx
  · exact hx

theorem fresh_of_new (hi : Inv s) {sub : Pool.Submission}
    (hnew : sub.isNew s.pool.accepted = true) : Fresh s sub.job := by
  have hout : sub.id ∉ s.pool.accepted.map Job.id := by
    intro hmem
    rcases List.mem_map.mp hmem with ⟨a, ha, hid⟩
    exact ((Pool.isNew_iff sub s.pool.accepted).mp hnew a ha).1 hid
  exact ⟨(by decide : (-1 : Int) ≤ 0), rfl, fun u hu => hout (hi.books.numbers _ hu),
    fun hp => hout (hi.books.preempted _ hp)⟩

theorem inv_pools (hi : Inv s) {a : Pool.Action n} {p : Pool.State n}
    (ha : a.isExecute = false) (h : Pool.Moves sched s.pool a p) : Inv { s with pool := p } := by
  have hpool := Pool.inv_moves hi.pool h
  have hat : ∀ w, AtWorker s (s.pool.workers w) (s.calls w) := hi.workers
  -- a worker moves on by itself, and its job stands as it stood
  have hset : ∀ {w : Fin n} {v : Worker}, AtWorker s v (s.calls w) →
      ∀ x, AtWorker s ((setWorker s.pool w v).workers x) (s.calls x) := atWorker_setWorker hi
  cases h with
  | enqueues sub wake ws hnew hwake =>
      refine inv_pool hi hpool (fun i h => ?_) (fun job hjob => ?_)
        (atWorker_notifyOne hwake hat)
      · rw [List.map_append]
        exact List.mem_append_left _ h
      · rcases List.mem_append.mp hjob with hjob | hjob
        · exact hi.queued job hjob
        · rw [List.mem_singleton.mp hjob]
          exact .inl (fresh_of_new hi hnew)
  | takes w job rest hw hg =>
      have hperm := Scheduler.getNextJob_perm hg
      have hc := hat w
      rw [hw] at hc
      refine inv_pool hi hpool (fun i h => h)
        (fun j hj => hi.queued j (hperm.mem_iff.mpr (List.mem_cons_of_mem job hj))) (hset ?_)
      rw [show s.calls w = .outside from hc]
      exact hi.queued job (hperm.mem_iff.mpr List.mem_cons_self)
  | requeues w job wake ws hw hwake =>
      have hc := hat w
      rw [hw] at hc
      refine inv_pool hi hpool (fun i h => h) (fun j hj => ?_)
        (atWorker_notifyOne hwake (hset hc.1))
      rcases List.mem_append.mp hj with hj | hj
      · exact hi.queued j hj
      · rw [List.mem_singleton.mp hj]
        exact .inr ⟨⟨hc.2.1.pid, hc.2.1.number, hc.2.1.child⟩, hc.2.2⟩
  | preempts | finishes => simp only [Pool.Action.isExecute, reduceCtorEq] at ha
  | enters w hw | leaves w hw | blocks w hw | departs w hw | wakes w hw =>
      have hc := hat w
      rw [hw] at hc
      exact inv_pool hi hpool (fun i h => h) hi.queued (hset hc)
  | files w job res hw | reports w job res hw | passes w job res hw | pays w job res q hw =>
      have hc := hat w
      rw [hw] at hc
      exact inv_pool hi hpool (fun i h => h) hi.queued (hset hc)
  | breaks w job res q hw | ends w job hw =>
      have hc := hat w
      rw [hw] at hc
      exact inv_pool hi hpool (fun i h => h) hi.queued (hset hc.1)
  | clears hs | joins hs hw => exact inv_pool hi hpool (fun i h => h) hi.queued hat
  | stops hs => exact inv_pool hi hpool (fun i h => h) hi.queued (atWorker_notifyAll hi)

theorem inv_collects (hi : Inv s) {w : Fin n} {job : Job} {res : ExecutionResult}
    (hw : s.pool.workers w = .executing job) (hjob : Reaped s job) (hres : res.preempted = false)
    (out err : Bytes) : Inv (collect s w job res out err) := by
  have hsettled := settled_of_reaped hi.books hjob
  unfold collect
  split
  · refine inv_own hi hw hi.pool
      { hi.books with collected := fun e he => ?_ } rfl
      (fun x hx => ⟨rfl, Function.update_of_ne hx _ _⟩)
      (fun i _ => sameFor_of_eq rfl rfl rfl rfl) ?_
    · rcases List.mem_cons.mp he with rfl | he
      · exact hjob.number
      · exact hi.books.collected e he
    · simp only [setCall, Function.update_self, hw, AtWorker, InCall, hres, Bool.false_eq_true,
        if_false]
      exact ⟨hsettled.number, hsettled.child⟩
  · refine inv_setCall hi hw ?_
    simp only [InCall, hres, Bool.false_eq_true, if_false]
    exact hsettled

/-- `isolateAndRun` returns early, with the result it began with. -/
theorem inv_givesUp (hi : Inv s) {w : Fin n} {job : Job}
    (hw : s.pool.workers w = .executing job) (hjob : Settled s job) :
    Inv (setCall s w (.returning {})) := by
  refine inv_setCall hi hw ?_
  simp only [InCall, Bool.false_eq_true, if_false]
  exact hjob

/-- `execute` returns a result that is final. -/
theorem inv_finishes (hi : Inv s) {w : Fin n} {job : Job}
    (hw : s.pool.workers w = .executing job) (hjob : Settled s job) (res : ExecutionResult) :
    Inv { setCall s w .outside with pool := setWorker s.pool w (.finished job res) } := by
  have hpool : Pool.Inv (setWorker s.pool w (.finished job res)) := pool_moves hi hw
    ⟨fun _ => rfl, fun _ => rfl, fun _ => rfl, fun _ => rfl⟩ job.pid job.uniqueId rfl
  exact inv_return hi hw hpool s.preempted (.inl rfl) ⟨rfl, hjob.number, hjob.child⟩

theorem inv_preempts (hi : Inv s) {w : Fin n} {job : Job}
    (hw : s.pool.workers w = .executing job) (hjob : Alive s job) :
    Inv { setCall s w .outside with
      pool := setWorker s.pool w (.requeueing job)
      preempted := job.id :: s.preempted } := by
  have hpool : Pool.Inv (setWorker s.pool w (.requeueing job)) := pool_moves hi hw
    ⟨fun _ => rfl, fun _ => rfl, fun _ => rfl, fun _ => rfl⟩ job.pid job.uniqueId rfl
  exact inv_return hi hw hpool _ (.inr rfl)
    ⟨rfl, ⟨hjob.pid, hjob.number, hjob.child⟩, List.mem_cons_self⟩

theorem inv_moves {a : Action n} (hi : Inv s) (h : Moves sched s a t) : Inv t := by
  have hb := hi.books
  cases h with
  | pools a p ha hp => exact inv_pools hi ha hp
  | exits w job hw hc =>
      exact ⟨hi.pool, { hb with },
        fun j hj => Queued.same (s := s) (sameFor_of_eq rfl rfl rfl rfl) (hi.queued j hj),
        fun x => AtWorker.same (s := s) (fun _ _ => sameFor_of_eq rfl rfl rfl rfl) (hi.workers x)⟩
  | answers w job res hw hc =>
      exact inv_finishes hi hw (settled_of_queued hb (inCall_of_executing hi hw hc)) res
  | lacks w job hw hc hpid =>
      exact inv_givesUp hi hw (settled_of_queued hb (inCall_of_executing hi hw hc))
  | launches w job hw hc hpid =>
      -- a job that was preempted has a pid
      refine inv_setCall hi hw ?_
      exact (inCall_of_executing hi hw hc).resolve_right fun ha => absurd ha.1.pid (by omega)
  | resumes w piped job hw hc hpid =>
      -- and a fresh one has none
      refine inv_setCall hi hw ?_
      exact ((inCall_of_executing hi hw hc).resolve_left fun hf => absurd hf.pid (by omega)).1
  | draws w job hw hc hid => exact inv_draws hi hw (inCall_of_executing hi hw hc)
  | keeps w job hw hc hid =>
      -- a fresh job has no number
      exact absurd (inCall_of_executing hi hw hc).uniqueId hid
  | misses w job hw hc =>
      exact inv_givesUp hi hw (settled_of_unlaunched hb (inCall_of_executing hi hw hc).unlaunched)
  | clones w job pid hw hc hpos hnew =>
      exact inv_clones hi hw (inCall_of_executing hi hw hc) hpos hnew
  | gives w job hw hc =>
      exact inv_givesUp hi hw (settled_of_alive hb (inCall_of_executing hi hw hc))
  | stops w job hw hc =>
      refine inv_setCall hi hw ?_
      simp only [InCall, if_true]
      exact inCall_of_executing hi hw hc
  | reaps w status job hw hc => exact inv_reaps hi hw (inCall_of_executing hi hw hc) status
  | collects w out err job res hw hc =>
      have hjob := inCall_of_executing hi hw hc
      exact inv_collects hi hw hjob.1 hjob.2 out err
  | preempts w job res hw hc hp =>
      have hjob := inCall_of_executing hi hw hc
      simp only [InCall, hp, if_true] at hjob
      exact inv_preempts hi hw hjob
  | finishes w job res hw hc hp =>
      have hjob := inCall_of_executing hi hw hc
      simp only [InCall, hp, Bool.false_eq_true, if_false] at hjob
      exact inv_finishes hi hw hjob res

theorem inv_run {actions : List (Action n)}
    (h : Lts.run (step sched) (init n) actions = some s) : Inv s :=
  Lts.run_invariant (fun _ _ _ hi hs => inv_moves hi (moves_of_step hs)) inv_init h

/-! ## One process, one number -/

/-- The job is in the deque or in a worker's hands. -/
def Present (s : State n) (job : Job) : Prop :=
  job ∈ s.pool.jobs ∨ ∃ w, (s.pool.workers w).job? = some job

/-- The process cloned for the job was not reaped. -/
def Unreaped (s : State n) (i : Nat) : Prop := ∃ c ∈ s.children, c.job = i

/-- Every job has one process and one number. -/
structure OneProcess (s : State n) : Prop where
  /-- No program is cloned twice. -/
  once : (s.launched.map Prod.fst).Nodup
  /-- A job in the deque has a pid exactly when it was preempted. -/
  preempted : ∀ job ∈ s.pool.jobs, 0 < job.pid ↔ job.id ∈ s.preempted
  /-- It is that of the unreaped child cloned for the job. -/
  child : ∀ job ∈ s.pool.jobs, 0 < job.pid → ⟨job.pid, job.id⟩ ∈ s.children
  apart : ∀ job job', Present s job → Present s job' → Unreaped s job.id → Unreaped s job'.id →
    job.pid = job'.pid → job.id = job'.id
  positive : ∀ e ∈ s.launched, 0 < e.2
  distinct : (s.launched.map Prod.snd).Nodup
  /-- A job carries the number it was launched with. -/
  kept : ∀ job, Present s job → ∀ u, (job.id, u) ∈ s.launched → job.uniqueId = u
  /-- Output is collected under the number the job was launched with. -/
  collected : ∀ e ∈ s.collected, e ∈ s.launched

theorem settled_of_present (hi : Inv s) {job : Job} (h : Present s job) : Settled s job := by
  rcases h with hjob | ⟨w, hw⟩
  · exact settled_of_queued hi.books (hi.queued job hjob)
  · have hat := hi.workers w
    cases hv : s.pool.workers w with
    | executing j =>
        rw [hv] at hw hat
        cases Option.some.inj hw
        cases hc : s.calls w with
        | outside =>
            rw [hc] at hat
            exact settled_of_queued hi.books hat
        | launching =>
            rw [hc] at hat
            exact settled_of_fresh hi.books hat
        | numbered =>
            rw [hc] at hat
            exact settled_of_unlaunched hi.books (Numbered.unlaunched hat)
        | waiting =>
            rw [hc] at hat
            exact settled_of_alive hi.books hat
        | collecting res =>
            rw [hc] at hat
            exact settled_of_reaped hi.books hat.1
        | returning res =>
            simp only [hc, AtWorker, InCall] at hat
            split at hat
            · exact settled_of_alive hi.books hat
            · exact hat
    | requeueing j =>
        rw [hv] at hw hat
        cases Option.some.inj hw
        exact settled_of_alive hi.books hat.2.1
    | finished j res | submitting j res | submitted j res | settled j =>
        rw [hv] at hw hat
        cases Option.some.inj hw
        exact hat.2
    | atLoopHead | dequeuing | waiting | gone =>
        rw [hv] at hw
        simp only [Worker.job?, reduceCtorEq] at hw

/-- The numbers drawn before the counter wraps. -/
theorem int32_number {s : State n} (hfew : s.numbers.length < 2147483648) {k : Nat}
    (hk : k < s.numbers.length) : int32 ((k : Int) + 1) = (k : Int) + 1 :=
  int32_of_fits ⟨by omega, by omega⟩

theorem number_positive (hb : Books s) (hfew : s.numbers.length < 2147483648) :
    ∀ e ∈ s.numbers, 0 < e.2 := by
  intro e he
  have hmem : e.2 ∈ s.numbers.map Prod.snd := List.mem_map.mpr ⟨e, he, rfl⟩
  rw [hb.drawn, List.mem_map] at hmem
  rcases hmem with ⟨k, hk, hke⟩
  rw [int32_number hfew (List.mem_range.mp hk)] at hke
  omega

theorem numbers_nodup (hb : Books s) (hfew : s.numbers.length < 2147483648) :
    (s.numbers.map Prod.snd).Nodup := by
  rw [hb.drawn]
  refine List.Nodup.map_on (fun k hk l hl he => ?_) List.nodup_range
  rw [int32_number hfew (List.mem_range.mp hk), int32_number hfew (List.mem_range.mp hl)] at he
  omega

theorem oneProcess_of_inv (hi : Inv s) (hfew : s.numbers.length < 2147483648) :
    OneProcess s where
  once := hi.books.launchedOnce
  preempted job hjob := by
    rcases hi.queued job hjob with hf | ha
    · exact ⟨fun h => absurd hf.pid (by omega), fun h => absurd h hf.unpreempted⟩
    · exact ⟨fun _ => ha.2, fun _ => ha.1.pid⟩
  child job hjob hpid :=
    ((hi.queued job hjob).resolve_left fun hf => absurd hf.pid (by omega)).1.child
  apart job job' hjob hjob' hc hc' hpid := by
    rcases hc with ⟨⟨pid, i⟩, hc, hi₁⟩
    rcases hc' with ⟨⟨pid', i'⟩, hc', hi₂⟩
    simp only at hi₁ hi₂
    subst hi₁ hi₂
    -- each carries the pid of its child, so there is one child
    have h₁ := (settled_of_present hi hjob).child pid hc
    have h₂ := (settled_of_present hi hjob').child pid' hc'
    rw [← h₁] at hc
    rw [← h₂, ← hpid] at hc'
    exact hi.books.job_eq hc hc'
  positive e he := number_positive hi.books hfew e (hi.books.launched e he)
  distinct := List.Nodup.map_on (fun e he e' he' hu => List.inj_on_of_nodup_map
    (numbers_nodup hi.books hfew) (hi.books.launched e he) (hi.books.launched e' he') hu)
    (hi.books.launchedOnce.of_map _)
  kept job hjob := (settled_of_present hi hjob).number
  collected := hi.books.collected

/-- In every state any interleaving reaches, before `file_counter` has run out
    of numbers, every job has one process and one number. -/
theorem one_process (sched : Scheduler) (actions : List (Action n))
    (h : Lts.run (step sched) (init n) actions = some s)
    (hfew : s.numbers.length < 2147483648) : OneProcess s :=
  oneProcess_of_inv (inv_run h) hfew

/-- A job with a quantum of five milliseconds. -/
def quick : Pool.Submission where
  id := 1
  cmd := { executable := ascii "a" }
  resultPromise := none
  timeQuantum := 5

/-- It is launched and preempted, and finishes when another worker has resumed
    it. -/
def twoBursts (w v : Fin n) : List (Action n) :=
  [.pool (.enqueue quick none),
    .pool (.testRunning w), .pool (.dequeue w), .enter w true, .number w, .clone w (some 100),
    .wait w .stopped, .leave w, .pool (.requeue w none), .pool (.testRunning v),
    .pool (.dequeue v), .enter v true, .wait v (.ended (.exited 0)), .collect v (ascii "b") [],
    .leave v]

theorem one_process_two_bursts : ∃ s : State 2, s.launched = [(1, 1)] ∧ s.preempted = [1] ∧
    s.collected = [(1, 1)] ∧ OneProcess s :=
  ⟨_, rfl, rfl, rfl, one_process .fcfs (twoBursts 0 1) rfl (by decide)⟩

end Processes

end Isolyx
