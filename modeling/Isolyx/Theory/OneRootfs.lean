import Isolyx.Core.Engine
import Isolyx.Core.Rootfs
import Isolyx.Theory.Transparency

/-!
# One Root File System for the Whole Run

Which directory the jobs run in and which one their output is read from.
`prepareRootfs` makes the path absolute in every burst, so it depends on the
directory the engine is in when the burst begins. The burst that launches the
process binds the path of its own, and the one that sees the process end reads
the output below the path of its own; a `cd` may come before either.

A burst that neither launches nor collects uses its path for nothing, so a `cd`
that is undone in time does no harm. What counts is where the engine was when
the launching burst and the collecting burst began.

## Main definitions

* `Directories`: The directories the engine may be in.
* `SamePlace`: A job is launched in a given directory and collected there.
* `OneRootfs`: So is every job, by the paths `prepareRootfs` makes.
* `FromHome`: The burst that launches or collects began in the directory.

## Theorems

* `samePlace_moves`: What a step of a job's life does to its place.
* `traced_of_step`: The engine's directory is that of every burst that begins.
* `oneRootfs_iff_fromHome`: A run has one root file system exactly when the
  bursts that launch and collect begin in the initial directory.
* `cd_moves_rootfs`: After a `cd` the next job runs somewhere else.
-/

namespace Isolyx

namespace Lifecycle

variable {cfg : Config} {s t : State} {a : Action} {dir : Nat}

/-- What is known of a job's paths: the directory of its burst, that a burst
    past its launch has a process, and that a result is of a process that ended. -/
structure Traced (cwd begun : Nat) (s : State) : Prop where
  cwd : s.cwd = cwd
  rootfs : s.rootfs = begun
  launched : s.phase ≠ .queued → s.phase ≠ .made → s.launched = true
  ended : ∀ r, s.phase = .ended r → r.preempted = false

/-- The process was launched in the directory, and its output was read there. -/
structure SamePlace (dir : Nat) (s : State) : Prop where
  bound : s.launched = true → s.home = dir
  collected : ∀ r, s.phase.result = some r → s.rootfs = s.home

/-! ## The life of a job -/

theorem preempted_resultOf (status : WaitStatus) : (resultOf status).preempted = false := by
  cases status <;> rfl

/-- A step within a burst leaves the paths as they are. -/
theorem Traced.advance {cwd begun : Nat} (hs : Traced cwd begun s) (hcwd : t.cwd = s.cwd)
    (hrootfs : t.rootfs = s.rootfs) (hlaunched : t.launched = true)
    (hended : ∀ r, t.phase = .ended r → r.preempted = false) : Traced cwd begun t where
  cwd := hcwd.trans hs.cwd
  rootfs := hrootfs.trans hs.rootfs
  launched _ _ := hlaunched
  ended := hended

/-- Only the beginning of a burst and a `cd` change the paths. -/
theorem traced_moves {cwd begun : Nat} (hs : Traced cwd begun s) (h : Moves cfg s a t)
    (hdequeue : a ≠ .dequeue) (hcd : ∀ d, a ≠ .cd d) : Traced cwd begun t := by
  have hpast : s.phase ≠ .queued → s.phase ≠ .made → s.launched = true := hs.launched
  cases h with
  | dequeues hp => exact absurd rfl hdequeue
  | changes d => exact absurd rfl (hcd d)
  | clones hp hnew => exact hs.advance rfl rfl rfl (by simp)
  | applies hp | starts hp | syncs hp =>
      exact hs.advance rfl rfl (hpast (by simp [hp]) (by simp [hp])) (by simp)
  | resumes hp hold => exact hs.advance rfl rfl hold (by simp)
  | pollsEnd elapsed status hp hq hz | waits elapsed status hp hz =>
      refine hs.advance rfl rfl (hpast (by simp [hp]) (by simp [hp])) fun r hr => ?_
      rw [Phase.ended.injEq] at hr
      exact hr ▸ preempted_resultOf status
  | pollsStop elapsed leader hp | pollsExpired elapsed hp | pollsOn elapsed hp =>
      exact hs.advance rfl rfl (hpast (by simp [hp]) (by simp [hp])) (by simp)
  | collects r hp | unwatches r hp =>
      exact hs.advance rfl rfl (hpast (by simp [hp]) (by simp [hp])) (by simp [collect])
  | leaves r hp =>
      refine hs.advance rfl rfl (hpast (by simp [hp]) (by simp [hp])) fun r' hr' => ?_
      simp only [leave] at hr'
      split at hr' <;> simp at hr'
  | fires | works | exits | dies | groups | continues =>
      exact ⟨hs.cwd, hs.rootfs, hs.launched, hs.ended⟩

/-- A burst takes the directory the engine is in. -/
theorem traced_begin {cwd begun : Nat} (hs : Traced cwd begun s) (h : Moves cfg s .dequeue t) :
    Traced cwd cwd t := by
  cases h with
  | dequeues hp => exact ⟨hs.cwd, hs.cwd, fun _ h => absurd rfl h, fun r h => by simp [begin] at h⟩

/-- A result is there from the collection on. -/
theorem result_of_moves {r : ExecutionResult} (h : Moves cfg s a t) (hc : a ≠ .collect)
    (hr : t.phase.result = some r) : s.phase.result = some r := by
  cases h with
  | collects r' hp => exact absurd rfl hc
  | unwatches r' hp =>
      rw [hp]
      exact hr
  | leaves r' hp =>
      rw [hp]
      by_cases hpre : r'.preempted = true
      · simp [leave, hpre, Phase.result] at hr
      · simpa [leave, hpre, Phase.result] using hr
  | fires | works | exits | dies | groups | continues | changes => exact hr
  | _ => simp [begin, Phase.result] at hr

/-- A step keeps the job in its place exactly when the burst began there, if it
    launches the process or collects its output. -/
theorem samePlace_moves {cwd begun : Nat} (ht : Traced cwd begun s) (hs : SamePlace dir s)
    (h : Moves cfg s a t) :
    SamePlace dir t ↔ (a = .clone ∨ a = .collect → begun = dir) := by
  have hresult := fun r => result_of_moves (r := r) h
  cases h with
  | clones hp hnew =>
      constructor
      · intro hplace _
        exact ht.rootfs.symm.trans (hplace.bound rfl)
      · intro hbegun
        exact ⟨fun _ => ht.rootfs.trans (hbegun (.inl rfl)),
          fun r hr => by simp [Phase.result] at hr⟩
  | collects r hp =>
      have hhome : s.home = dir := hs.bound (ht.launched (by simp [hp]) (by simp [hp]))
      have hr : (collect cfg s r).phase.result ≠ none := by
        simp [collect, Phase.result, ht.ended r hp]
      rcases Option.ne_none_iff_exists'.mp hr with ⟨r', hr'⟩
      constructor
      · intro hplace _
        exact ht.rootfs.symm.trans ((hplace.collected r' hr').trans hhome)
      · intro hbegun
        exact ⟨hs.bound, fun _ _ => ht.rootfs.trans ((hbegun (.inr rfl)).trans hhome.symm)⟩
  | dequeues hp =>
      -- the new path counts once the burst launches or collects
      refine iff_of_true ⟨hs.bound, fun r hr => by simp [begin, Phase.result] at hr⟩ (by simp)
  | _ => exact iff_of_true ⟨hs.bound, fun r hr => hs.collected r (hresult r (by simp) hr)⟩ (by simp)

end Lifecycle

namespace Engine

open Rootfs (Loc prepareRootfs)

variable {n : Nat} {setup : Setup} {s t : State n} {a : Action n} {dir : Nat}

/-! ## The engine -/

/-- The directories the engine may be in, each with an absolute path of its own. -/
structure Directories where
  location : Nat → Loc
  injective : Function.Injective location

/-- What `prepareRootfs` returns in a directory. -/
def Directories.rootfs (dirs : Directories) (d : Nat) : Loc := prepareRootfs (dirs.location d)

/-- Every job was launched in the initial directory's `rootfs_base`, and its
    output was read in the directory it was launched in. -/
structure OneRootfs (dirs : Directories) (dir : Nat) (s : State n) : Prop where
  bound : ∀ i, (s.jobs i).launched = true →
    dirs.rootfs (s.jobs i).home = dirs.rootfs dir
  collected : ∀ i r, (s.jobs i).phase.result = some r →
    dirs.rootfs (s.jobs i).rootfs = dirs.rootfs (s.jobs i).home

/-- A burst that launches the process or collects its output began while the
    engine was in the directory. -/
def FromHome (dir : Nat) (s : State n) : Action n → Prop
  | .burst w a => ∀ job, s.pool.workers w = .executing job →
      a = .clone ∨ a = .collect → s.begun job.id = dir
  | _ => True

theorem Directories.rootfs_inj (dirs : Directories) {d e : Nat} :
    dirs.rootfs d = dirs.rootfs e ↔ d = e := by
  unfold Directories.rootfs prepareRootfs
  rw [List.append_left_inj, dirs.injective.eq_iff]

/-- The paths agree exactly when the directories do. -/
theorem oneRootfs_iff (dirs : Directories) :
    OneRootfs dirs dir s ↔ ∀ i, Lifecycle.SamePlace dir (s.jobs i) := by
  constructor
  · intro h i
    exact ⟨fun hl => dirs.rootfs_inj.mp (h.bound i hl),
      fun r hr => dirs.rootfs_inj.mp (h.collected i r hr)⟩
  · intro h
    exact ⟨fun i hl => dirs.rootfs_inj.mpr ((h i).bound hl),
      fun i r hr => dirs.rootfs_inj.mpr ((h i).collected r hr)⟩

/-- The engine's directory is that of every burst that begins. -/
def Traced (s : State n) : Prop := ∀ i, Lifecycle.Traced s.cwd (s.begun i) (s.jobs i)

theorem traced_init (n dir : Nat) : Traced (init n dir) :=
  fun _ => ⟨rfl, rfl, fun h => absurd rfl h, fun _ h => by simp [init, Lifecycle.init] at h⟩

/-- A job that is not the one that moved is where it was. -/
theorem Traced.update {i : Nat} {b : Lifecycle.Action} {j : Lifecycle.State} (hs : Traced s)
    (hj : Lifecycle.step (setup.config i) (s.jobs i) b = some j) (hdequeue : b ≠ .dequeue)
    (hcd : ∀ d, b ≠ .cd d) (k : Nat) :
    Lifecycle.Traced s.cwd (s.begun k) (Function.update s.jobs i j k) := by
  rcases updated_of_live hj k with heq | ⟨rfl, hk⟩
  · exact heq ▸ hs k
  · exact Lifecycle.traced_moves (hs k) (Lifecycle.moves_of_step hk) hdequeue hcd

theorem Traced.handles {cmd : Command} (hs : Traced s) (h : Handles setup s cmd t) : Traced t := by
  cases h with
  | exits | stays => exact hs
  | enters path d => exact fun i => ⟨rfl, (hs i).rootfs, (hs i).launched, (hs i).ended⟩

theorem traced_of_step (hs : Traced s) (h : step setup s a = some t) : Traced t := by
  cases moves_of_step h with
  | skips | ignores | resumes | returns | quits | stops | loops => exact hs
  | accepts line wake cmd u hline hsub =>
      rcases submit_eq_some hsub with ⟨p, -, rfl⟩
      exact hs
  | submits line outcome wake main u hc hsub =>
      rcases submit_eq_some hsub with ⟨p, -, rfl⟩
      exact hs
  | interprets line outcome wake t hc hh => exact hs.handles hh
  | executes w outcome job res u v hw hc hh ht hret =>
      rcases returnResult_eq_some hret with ⟨p, -, rfl⟩
      have hu := hs.handles hh
      exact hu
  | bursts w b job u hw hc hb hburst =>
      rcases burst_eq_some hburst with ⟨j, hj, rfl⟩
      by_cases hbegin : b = .dequeue
      · -- the new burst takes the directory the engine is in
        subst hbegin
        intro k
        rw [if_pos rfl]
        by_cases hk : k = job.id
        · subst hk
          simp only [Function.update_self]
          exact Lifecycle.traced_begin (hs job.id) (Lifecycle.moves_of_step hj)
        · simp only [Function.update_of_ne hk]
          exact hs k
      · intro k
        have hcd : ∀ d, b ≠ .cd d := by
          intro d heq
          simp [heq, Lifecycle.Action.ofWorker] at hb
        have hk := hs.update hj hbegin hcd k
        simpa only [if_neg hbegin] using hk
  | ends w pid uniqueId job res u v hw hp hlive hret =>
      rcases live_eq_some hlive with ⟨j, hj, rfl⟩
      rcases returnResult_eq_some hret with ⟨p, -, rfl⟩
      exact hs.update hj (by simp) (by simp)
  | lives i b u hb hlive =>
      rcases live_eq_some hlive with ⟨j, hj, rfl⟩
      have hof := hb.imp_right And.left
      exact hs.update hj (Lifecycle.Action.ne_of_ofProcess hof rfl (by simp)) fun d =>
        Lifecycle.Action.ne_of_ofProcess hof rfl (by simp)

/-- Only a step of a burst may take a job out of its place. -/
theorem samePlace_of_step (hi : Traced s) (hs : ∀ i, Lifecycle.SamePlace dir (s.jobs i))
    (h : step setup s a = some t) (hburst : ∀ w b, a ≠ .burst w b) (i : Nat) :
    Lifecycle.SamePlace dir (t.jobs i) := by
  have hhandles : ∀ {cmd : Command} {u : State n}, Handles setup s cmd u →
      Lifecycle.SamePlace dir (u.jobs i) := by
    intro cmd u hh
    cases hh with
    | exits | stays => exact hs i
    | enters path d => exact ⟨(hs i).bound, (hs i).collected⟩
  -- outside of a burst nothing is launched and nothing is collected
  have hlives : ∀ {k : Nat} {b : Lifecycle.Action} {j : Lifecycle.State},
      Lifecycle.step (setup.config k) (s.jobs k) b = some j → b ≠ .clone → b ≠ .collect →
      Lifecycle.SamePlace dir (Function.update s.jobs k j i) := by
    intro k b j hj hclone hcollect
    rcases updated_of_live hj i with heq | ⟨rfl, hk⟩
    · exact heq ▸ hs i
    · refine (Lifecycle.samePlace_moves (hi i) (hs i) (Lifecycle.moves_of_step hk)).mpr ?_
      intro hb
      exact absurd hb (not_or.mpr ⟨hclone, hcollect⟩)
  cases moves_of_step h with
  | skips | ignores | resumes | returns | quits | stops | loops => exact hs i
  | accepts line wake cmd u hline hsub =>
      rcases submit_eq_some hsub with ⟨p, -, rfl⟩
      exact hs i
  | submits line outcome wake main u hc hsub =>
      rcases submit_eq_some hsub with ⟨p, -, rfl⟩
      exact hs i
  | interprets line outcome wake t hc hh => exact hhandles hh
  | executes w outcome job res u v hw hc hh ht hret =>
      rcases returnResult_eq_some hret with ⟨p, -, rfl⟩
      have hu := hhandles hh
      exact hu
  | bursts w b => exact absurd rfl (hburst w b)
  | ends w pid uniqueId job res u v hw hp hlive hret =>
      rcases live_eq_some hlive with ⟨j, hj, rfl⟩
      rcases returnResult_eq_some hret with ⟨p, -, rfl⟩
      exact hlives hj (by simp) (by simp)
  | lives k b u hb hlive =>
      rcases live_eq_some hlive with ⟨j, hj, rfl⟩
      have hof := hb.imp_right And.left
      exact hlives hj (Lifecycle.Action.ne_of_ofProcess hof rfl (by simp))
        (Lifecycle.Action.ne_of_ofProcess hof rfl (by simp))

/-- On states a run goes through, a step keeps every job in its place exactly
    when a burst that launches or collects began there. -/
theorem samePlace_step (hi : Traced s) (hs : ∀ i, Lifecycle.SamePlace dir (s.jobs i))
    (h : step setup s a = some t) :
    (∀ i, Lifecycle.SamePlace dir (t.jobs i)) ↔ FromHome dir s a := by
  have hother : (∀ w b, a ≠ .burst w b) → FromHome dir s a := by
    intro hne
    cases a with
    | burst w b => exact absurd rfl (hne w b)
    | _ => trivial
  cases moves_of_step h with
  | bursts w b job u hw hc hb hburst =>
      rcases burst_eq_some hburst with ⟨j, hj, rfl⟩
      have hplace := Lifecycle.samePlace_moves (hi job.id) (hs job.id) (Lifecycle.moves_of_step hj)
      constructor
      · intro hall held hheld
        rw [hw, Pool.Worker.executing.injEq] at hheld
        subst hheld
        have hself : Lifecycle.SamePlace dir (Function.update s.jobs job.id j job.id) := hall job.id
        rw [Function.update_self] at hself
        exact hplace.mp hself
      · intro hfrom k
        by_cases hk : k = job.id
        · subst hk
          simp only [Function.update_self]
          exact hplace.mpr (hfrom job hw)
        · simp only [Function.update_of_ne hk]
          exact hs k
  | _ => exact iff_of_true (samePlace_of_step hi hs h (by simp)) (hother (by simp))

/-- For every job the root file system is the initial directory's `rootfs_base`,
    and its output is read from there, exactly when the bursts that launch and
    collect begin while the engine is in that directory. -/
theorem oneRootfs_iff_fromHome (dirs : Directories) (setup : Setup) (n dir : Nat)
    (actions : List (Action n)) :
    Lts.Always (step setup) (OneRootfs dirs dir) (init n dir) actions ↔
      Lts.Along (step setup) (FromHome dir) (init n dir) actions := by
  refine Lts.always_iff_along (I := Traced) (fun _ _ _ hi _ h => traced_of_step hi h)
    (fun s a t hi hP h => ?_) actions (traced_init n dir) ?_
  · rw [oneRootfs_iff]
    exact samePlace_step hi ((oneRootfs_iff dirs).mp hP) h
  · refine (oneRootfs_iff dirs).mpr fun i => ⟨fun hl => ?_, fun r hr => ?_⟩
    · simp [init, Lifecycle.init] at hl
    · simp [init, Lifecycle.init, Lifecycle.Phase.result] at hr

/-- A `cd` at the prompt, and the next job runs in another directory's
    `rootfs_base`. -/
theorem cd_moves_rootfs : ¬ ∀ (dirs : Directories) (setup : Setup) (n dir : Nat)
    (actions : List (Action n)),
    Lts.Always (step setup) (OneRootfs dirs dir) (init n dir) actions := by
  intro h
  let dirs : Directories := ⟨fun d => List.replicate d [], fun d e hde => by
    simpa using congrArg List.length hde⟩
  let setup : Setup := ⟨.fcfs, fun _ => 0, fun _ => ([], []), fun _ _ _ => true⟩
  let actions : List (Action 4) := [.shellLine (ascii "cd b") (some 1) none,
    .shellLine (ascii "a") none none, .pool (.testRunning 0), .pool (.dequeue 0),
    .burst 0 .dequeue, .burst 0 .clone]
  have hrun : (Lts.run (step setup) (init 4 0) actions).map
      (fun s => ((s.jobs 1).launched, (s.jobs 1).home)) = some (true, 1) := by decide
  rcases Option.map_eq_some_iff.mp hrun with ⟨t, ht, hend⟩
  simp only [Prod.mk.injEq] at hend
  have hone := (oneRootfs_iff dirs).mp (Lts.always_end (h dirs setup 4 0 actions) ht)
  exact absurd (hend.2.symm.trans ((hone 1).bound hend.1)) (by decide)

end Engine

end Isolyx
