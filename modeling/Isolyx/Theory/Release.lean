import Isolyx.Core.Isolator

/-!
# What a Call of the Isolator Gives Back

A call that goes well opens and closes in pairs, reaps its process, stops the
watchdog and deletes the two files. Each of its early returns leaves out what
comes after it, and so the question is which returns had nothing to give back.

Only two have: that of a command without a program, and that of a `pipe` that
fails. A `clone` that fails always leaves both ends of the pipe open
(`pipe_ne`). A `waitpid` that fails leaves its process, the watchdog and the
files, and gives everything back only if there is none of them. After the end
of the process it is up to the files whether they go: a directory, or what
cannot be opened, does not.

## Main definitions

* `Released`: What the call took is given back.
* `Recovers`: The ends of the wait after which that is so.
* `GivesBack`: The calls for which that is so.

## Theorems

* `close_pipe`: Closing both ends of the sync pipe restores the table.
* `readAndDelete_spec`: What `read_and_delete` leaves.
* `collect_spec`: What follows the end of the process.
* `handle_released`: The end of the wait.
* `givesBack_iff`: The condition, where there is a wait.
* `released_iff`: The whole call.
-/

namespace Isolyx

namespace Isolator

open Descriptors (Table standard)
open Descriptors.Table
open Launch (OsStep)

/-- What the call took is given back: its descriptors, its process, the
    threads of the watchdog and the two files. -/
structure Released (entry : Table Nat) (t : State) : Prop where
  table : t.table = entry.map .prior
  children : t.children = []
  threads : t.threads = 0
  out : t.out = .absent
  err : t.err = .absent

/-- A file that `read_and_delete` can delete, or that is not there. -/
def Leftover.goes : Leftover → Bool
  | .absent => true
  | .present (.reads _) unlinks => unlinks
  | .present _ _ => false

/-- The number the job's files have. -/
def number (job : Job) (fileCounter : Int) : Int :=
  if job.pid ≤ 0 ∧ job.uniqueId = 0 then fileCounter else job.uniqueId

/-- The end of the wait after which everything is given back: the process has
    ended and its files can be deleted, or it was gone already and there is
    nothing to stop or to delete. -/
def Recovers (uniqueId : Int) (threads : Nat) (out err : Leftover) : Report → Prop
  | .ended _ =>
      (out = .absent ∧ err = .absent) ∨ (0 < uniqueId ∧ out.goes = true ∧ err.goes = true)
  | .failed gone => gone = true ∧ threads = 0 ∧ out = .absent ∧ err = .absent
  | .nothing | .stopped => True

/-- When a call gives back what it took. -/
def GivesBack (members : Nat) (host : Host) (job : Job) (fileCounter : Int)
    (out err : Leftover) : Prop :=
  if job.cmd.isEmpty = true ∨ (job.pid ≤ 0 ∧ host.ok .pipe = false) then
    out = .absent ∧ err = .absent
  else
    (job.pid ≤ 0 → host.ok .clone = true) ∧
      ∀ report, wait job.timeQuantum host.reports = some report →
        Recovers (number job fileCounter) (if job.pid ≤ 0 then members else 0) out err report

/-! ## The branch that starts a process -/

theorem close_insert (t : Table Desc) (d : Desc) : (t.insert d).close t.free = t :=
  close_push t.lookup_free

theorem writeFile_eq (host : Host) (opens : OsStep) (t : Table Desc) :
    writeFile host opens t = t := by
  rw [writeFile, close_insert, ite_self]

/-- Both ends of the sync pipe, closed in the order they were opened. -/
theorem close_pipe (t : Table Desc) :
    (((t.insert .syncRead).insert .syncWrite).close t.free).close (t.insert .syncRead).free =
      t := by
  have hne : (t.insert .syncRead).free ≠ t.free :=
    ((lookup_push_eq_none t.lookup_free).mp (t.insert .syncRead).lookup_free).1
  have hread : (((t.insert .syncRead).insert .syncWrite).close t.free) =
      ((t.insert .syncRead).close t.free).push (t.insert .syncRead).free .syncWrite
        (lookup_close_of_free (t.insert .syncRead).lookup_free t.free) :=
    close_push_of_ne _ hne
  rw [hread, close_push, close_insert]

/-- With both ends open, the table is another one. -/
theorem pipe_ne (t : Table Desc) : (t.insert .syncRead).insert .syncWrite ≠ t :=
  push_ne (t.insert .syncRead).lookup_free
    ((lookup_push_eq_none t.lookup_free).mp (t.insert .syncRead).lookup_free).2

theorem launch_pipe (members : Nat) {host : Host} (job : Job) (s : State)
    (h : host.ok .pipe = false) : launch members host job s = (s, job, false) := by
  rw [launch, h, Bool.not_false, if_pos rfl]

/-- A clone that fails leaves both ends of the pipe open. -/
theorem launch_clone (members : Nat) {host : Host} (job : Job) (s : State)
    (hpipe : host.ok .pipe = true) (h : host.ok .clone = false) :
    ∃ t j, launch members host job s = (t, j, false) ∧
      t.table = (s.table.insert .syncRead).insert .syncWrite := by
  simp only [launch, hpipe, h, Bool.not_true, Bool.not_false, Bool.false_eq_true, if_false, if_true]
  exact ⟨_, _, rfl, rfl⟩

/-- A launch leaves the process and the threads of the watchdog. -/
theorem launch_ok (members : Nat) {host : Host} (job : Job) (s : State)
    (hpipe : host.ok .pipe = true) (h : host.ok .clone = true) :
    ∃ counter, launch members host job s =
      ({ s with children := host.pid :: s.children, threads := members, fileCounter := counter },
        { job with
          pid := host.pid
          uniqueId := if job.uniqueId = 0 then s.fileCounter else job.uniqueId }, true) := by
  simp only [launch, hpipe, h, Bool.not_true, Bool.false_eq_true, if_false, writeFile_eq,
    close_pipe]
  split_ifs
  · exact ⟨_, rfl⟩
  · exact ⟨_, rfl⟩

/-! ## What follows the end of the process -/

/-- Reading a file and deleting it leaves the descriptors as they were. -/
theorem readAndDelete_spec {t u : Table Desc} {f g : Leftover} {content : Bytes}
    (h : readAndDelete t f = some (u, g, content)) : u = t ∧ (g = .absent ↔ f.goes = true) := by
  cases f with
  | absent =>
      simp only [readAndDelete, Option.some.injEq, Prod.mk.injEq] at h
      exact ⟨h.1.symm, iff_of_true h.2.1.symm rfl⟩
  | present opening unlinks =>
      cases opening with
      | fails =>
          simp only [readAndDelete, Option.some.injEq, Prod.mk.injEq] at h
          refine ⟨h.1.symm, iff_of_false (fun hg => ?_) Bool.false_ne_true⟩
          exact absurd (h.2.1.trans hg) (by simp)
      | hangs => exact absurd h (by simp [readAndDelete])
      | reads bytes =>
          simp only [readAndDelete, Option.some.injEq, Prod.mk.injEq, close_insert] at h
          refine ⟨h.1.symm, ?_⟩
          rw [← h.2.1, Leftover.goes]
          cases unlinks with
          | true => exact iff_of_true rfl rfl
          | false => exact iff_of_false (by simp) Bool.false_ne_true

theorem goes_of_absent {f : Leftover} (h : f = .absent) : f.goes = true := by
  rw [h]
  rfl

theorem collect_spec {s t : State} {job j : Job} {result r : ExecutionResult}
    (h : collect s job result = some (t, j, r)) :
    t.table = s.table ∧ t.children = s.children ∧ t.threads = 0 ∧
      (t.out = .absent ∧ t.err = .absent ↔ (s.out = .absent ∧ s.err = .absent) ∨
        (0 < job.uniqueId ∧ s.out.goes = true ∧ s.err.goes = true)) := by
  rw [collect] at h
  by_cases hid : 0 < job.uniqueId
  · simp only [hid, if_true, Option.bind_eq_some_iff, Option.map_eq_some_iff] at h
    rcases h with ⟨⟨u, out, stdoutOut⟩, hout, ⟨v, err, stderrOut⟩, herr, heq⟩
    have hu := readAndDelete_spec hout
    have hv := readAndDelete_spec herr
    simp only [Prod.mk.injEq] at heq
    rw [← heq.1]
    refine ⟨hv.1.trans hu.1, rfl, rfl, ?_⟩
    rw [show (out = .absent ∧ err = .absent) ↔ s.out.goes = true ∧ s.err.goes = true from
      and_congr hu.2 hv.2]
    constructor
    · exact fun hg => .inr ⟨hid, hg⟩
    · rintro (habsent | hg)
      · exact ⟨goes_of_absent habsent.1, goes_of_absent habsent.2⟩
      · exact hg.2
  · simp only [hid, if_false, Option.some.injEq, Prod.mk.injEq] at h
    rw [← h.1]
    refine ⟨rfl, rfl, rfl, fun habsent => .inl habsent, ?_⟩
    rintro (habsent | hg)
    · exact habsent
    · exact absurd hg.1 hid

/-! ## The whole call -/

/-- From the wait on, with one process to wait for. -/
theorem handle_released {entry : Table Nat} {s t : State} {job j : Job} {r : ExecutionResult}
    {report : Report} (htable : s.table = entry.map .prior) (hchildren : s.children = [job.pid])
    (h : handle s job report = some (t, j, r)) (hp : r.preempted = false) :
    Released entry t ↔ Recovers job.uniqueId s.threads s.out s.err report := by
  have hreaped : s.children.filter (· ≠ job.pid) = [] := by
    rw [hchildren]
    simp
  cases report with
  | nothing => exact absurd h (by simp [handle])
  | stopped =>
      simp only [handle, Option.some.injEq, Prod.mk.injEq] at h
      rw [← h.2.2] at hp
      exact absurd hp (by simp)
  | ended ending =>
      rcases collect_spec h with ⟨ht, hc, hthreads, hfiles⟩
      rw [Recovers, ← hfiles]
      exact ⟨fun hr => ⟨hr.out, hr.err⟩,
        fun hf => ⟨ht.trans htable, hc.trans hreaped, hthreads, hf.1, hf.2⟩⟩
  | failed gone =>
      simp only [handle, Option.some.injEq, Prod.mk.injEq] at h
      rw [← h.1]
      cases gone with
      | true =>
          rw [if_pos rfl, Recovers]
          exact ⟨fun hr => ⟨rfl, hr.threads, hr.out, hr.err⟩,
            fun hf => ⟨htable, hreaped, hf.2.1, hf.2.2.1, hf.2.2.2⟩⟩
      | false =>
          refine iff_of_false (fun hr => ?_) fun hf => Bool.false_ne_true hf.1
          have hnil : s.children = [] := hr.children
          rw [hchildren] at hnil
          exact absurd hnil (List.cons_ne_nil _ _)

/-- Where a call gets to its wait, the condition is about what that reports. -/
theorem givesBack_iff {members : Nat} {host : Host} {job : Job} {fileCounter : Int}
    {out err : Leftover} {report : Report} (hempty : job.cmd.isEmpty = false)
    (hpipe : job.pid ≤ 0 → host.ok .pipe = true)
    (hclone : job.pid ≤ 0 → host.ok .clone = true)
    (hwait : wait job.timeQuantum host.reports = some report) :
    GivesBack members host job fileCounter out err ↔
      Recovers (number job fileCounter) (if job.pid ≤ 0 then members else 0) out err report := by
  have hstarts : ¬ (job.cmd.isEmpty = true ∨ (job.pid ≤ 0 ∧ host.ok .pipe = false)) := by
    rintro (h | ⟨hpid, h⟩)
    · exact Bool.false_ne_true (hempty.symm.trans h)
    · exact Bool.false_ne_true (h.symm.trans (hpipe hpid))
  rw [GivesBack, if_neg hstarts]
  constructor
  · exact fun hg => hg.2 report hwait
  · intro hrec
    refine ⟨hclone, fun report' hwait' => ?_⟩
    rw [← Option.some.inj (hwait.symm.trans hwait')]
    exact hrec

/-- A call that returns for good has given back what it took exactly under the
    condition. -/
theorem released_iff {members : Nat} {host : Host} {job j : Job} {entry : Table Nat}
    {fileCounter : Int} {out err : Leftover} {t : State} {r : ExecutionResult}
    (h : isolateAndRun members host job (init entry fileCounter out err) = some (t, j, r))
    (hp : r.preempted = false) :
    Released entry t ↔ GivesBack members host job fileCounter out err := by
  have hnothing : ∀ {job : Job},
      some (init entry fileCounter out err, job, ({} : ExecutionResult)) = some (t, j, r) →
      (Released entry t ↔ out = .absent ∧ err = .absent) := by
    intro job heq
    simp only [Option.some.injEq, Prod.mk.injEq] at heq
    rw [← heq.1]
    exact ⟨fun hr => ⟨hr.out, hr.err⟩, fun hf => ⟨rfl, rfl, rfl, hf.1, hf.2⟩⟩
  rw [isolateAndRun] at h
  cases hempty : job.cmd.isEmpty with
  | true =>
      rw [hempty, if_pos rfl] at h
      rw [GivesBack, if_pos (.inl hempty)]
      exact hnothing h
  | false =>
      rw [hempty, if_neg Bool.false_ne_true] at h
      by_cases hpid : job.pid ≤ 0
      · cases hpipe : host.ok .pipe with
        | false =>
            simp only [hpid, if_true, launch_pipe members job _ hpipe, Bool.false_eq_true,
              if_false] at h
            rw [GivesBack, if_pos (.inr ⟨hpid, hpipe⟩)]
            exact hnothing h
        | true =>
            cases hclone : host.ok .clone with
            | false =>
                -- Both ends of the pipe stay open.
                rw [GivesBack, if_neg (by simp [hempty, hpipe]), hclone]
                rcases launch_clone members job (init entry fileCounter out err) hpipe hclone with
                  ⟨u, k, hl, hu⟩
                simp only [hpid, if_true, hl, Bool.false_eq_true, if_false, Option.some.injEq,
                  Prod.mk.injEq] at h
                refine iff_of_false (fun hr => pipe_ne (entry.map .prior) ?_) fun hg => ?_
                · exact hu.symm.trans ((congrArg State.table h.1).trans hr.table)
                · exact Bool.false_ne_true (hg.1 hpid)
            | true =>
                rcases launch_ok members job (init entry fileCounter out err) hpipe hclone with
                  ⟨counter, hl⟩
                simp only [hpid, if_true, hl, Option.bind_eq_some_iff] at h
                rcases h with ⟨report, hwait, h⟩
                have hnumber : number job fileCounter =
                    if job.uniqueId = 0 then fileCounter else job.uniqueId := by
                  simp only [number, hpid, true_and]
                rw [givesBack_iff hempty (fun _ => hpipe) (fun _ => hclone) hwait, hnumber,
                  if_pos hpid]
                exact handle_released rfl rfl h hp
      · simp only [hpid, if_false, if_true, Option.bind_eq_some_iff] at h
        rcases h with ⟨report, hwait, h⟩
        have hnumber : number job fileCounter = job.uniqueId := by
          simp only [number, hpid, false_and, if_false]
        rw [givesBack_iff hempty (fun hneg => absurd hneg hpid) (fun hneg => absurd hneg hpid)
          hwait, hnumber, if_neg hpid]
        exact handle_released rfl rfl h hp

/-- A job that was never launched. -/
def fresh : Job where
  id := 1
  cmd := { executable := ascii "true", arguments := [ascii "true"] }
  resultPromise := none

/-- Every system call succeeds, and the program ends with a status. -/
def smooth (code : UInt8) : Host where
  ok := fun _ => true
  pid := 7
  reports := [.nothing, .ended (.program (.exited code))]

theorem released_smooth :
    ∃ t j r, isolateAndRun 1 (smooth 0) fresh
        (init standard 1 (.present (.reads (ascii "hi")) true) (.present (.reads []) true)) =
          some (t, j, r) ∧ r.preempted = false ∧ Released standard t := by
  have hresult : (isolateAndRun 1 (smooth 0) fresh
      (init standard 1 (.present (.reads (ascii "hi")) true) (.present (.reads []) true))).map
        (fun x => x.2.2) = some { exitCode := 0, success := true, stdoutOut := ascii "hi" } := by
    decide
  rcases Option.map_eq_some_iff.mp hresult with ⟨⟨t, j, r⟩, h, rfl⟩
  refine ⟨t, j, _, h, rfl, (released_iff h rfl).mpr ?_⟩
  refine ⟨fun _ => rfl, fun report hwait => ?_⟩
  rw [← Option.some.inj hwait]
  exact .inr ⟨by decide, rfl, rfl⟩

/-- No process can be cloned, for want of a process id or of memory. -/
theorem failed_clone_leaks :
    ∃ t j r, isolateAndRun 1 { ok := fun call => call != .clone, pid := 7, reports := [] } fresh
        (init standard 1 .absent .absent) = some (t, j, r) ∧ r.preempted = false ∧
      t.table.lookup 3 = some .syncRead ∧ t.table.lookup 4 = some .syncWrite ∧
      ¬ Released standard t := by
  refine ⟨_, _, _, rfl, rfl, rfl, rfl, fun h => ?_⟩
  have htable := congrArg (fun u => u.lookup 3) h.table
  exact absurd htable (by decide)

end Isolator

end Isolyx
