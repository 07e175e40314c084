import Isolyx.Core.WatcherThread

/-!
# Quiescence of the Watchdogs

`stop` tests `running_`, and the thread may be gone while `running_` is still
true: it has fired, or it had no target. None of that keeps `stop` from its
`join`, because `running_` becomes false nowhere but in `stop`. So a `stop`
that finds it false has nothing to join, and one that finds it true joins,
whichever way the thread has ended.

Nor is there a notification that is lost. The thread goes to sleep with the
predicate just tested, and the mutex in between is what keeps the owner from
changing `running_`; from the notification on, `running_` is false and the
thread cannot go to sleep any more.

The invariant says who has the mutex from where the thread and the owner are,
what was sent from where the thread is, and how `running_` and `joinable` go
with the place of the owner.

## Main definitions

* `Inv`: What holds of a watchdog whose owner is at a place of `stop`.
* `OwnerWaits`, `WatcherWaits`: The owner and the thread cannot go on.

## Theorems

* `Inv.move`: What a step of the thread has to keep.
* `inv_thread`: The thread keeps the invariant.
* `inv_owner`: The owner keeps it.
* `invariant_step`: One step of the whole.
* `quiet_step`: No step kills for a watchdog that was stopped.
* `not_both_wait`: The owner and the thread do not wait for each other.
* `quiescence`: The whole of it, for every run.
-/

namespace Isolyx

namespace WatcherThread

open Lts
open Watchdogs (Kind)

/-- The thread has the mutex there. -/
def Thread.holds (kind : Kind) : Thread → Bool
  | testing _ | expired | leaving => true
  | firing | fired => match kind with
      | .timeout => true
      | .anomaly => false
  | _ => false

theorem holds_of_over {kind : Kind} {t : Thread} (h : t = .absent ∨ t = .ended) :
    t.holds kind = false := by
  rcases h with rfl | rfl
  · rfl
  · rfl

/-- What the thread has sent when it is there. Only one kind samples. -/
def Thread.Fits (kind : Kind) (sent : List Kill) : Thread → Prop
  | sampling => kind = .anomaly ∧ sent = []
  | fired => sent = [.group]
  | leaving | ended => sent = [] ∨ sent = [.group, .pid]
  | _ => sent = []

/-- The owner has the mutex there. -/
def Pc.holds : Pc → Bool
  | testing | unlocking => true
  | _ => false

/-- The owner has set `running_` to false. -/
def Pc.stopping : Pc → Bool
  | unlocking | notifying | joining => true
  | _ => false

/-- What holds of a watchdog whose owner is at a place of `stop`, or not in it. -/
structure Inv (kind : Kind) (o : Object) (pc : Option Pc) : Prop where
  watcher : o.mutex = some .watcher ↔ o.thread.holds kind = true
  owner : o.mutex = some .owner ↔ pc.any Pc.holds = true
  fits : o.thread.Fits kind o.sent
  running : o.running = true → o.joinable = true ∧ pc.any Pc.stopping = false
  joinable : o.joinable = true → o.running = true ∨ pc.any Pc.stopping = true
  idle : o.joinable = false → o.thread = .absent ∨ o.thread = .ended
  awake : pc = some .joining → o.thread ≠ .asleep
  untouched : o.touched = false → o = .new ∧ pc = none
  stopped : o.stopped = true → o.joinable = false
  destroyed : o.destroyed = true → o.stopped = true

/-- The owner is in `stop` and cannot go on. -/
def OwnerWaits (o : Object) (pc : Option Pc) : Prop :=
  ∃ place, pc = some place ∧ ownerStep o place = none

/-- There is a thread, it has not ended, and it cannot go on. -/
def WatcherWaits (kind : Kind) (o : Object) : Prop :=
  o.thread ≠ .absent ∧ o.thread ≠ .ended ∧ ∀ suspicious, threadStep kind o suspicious = none

theorem inv_new (kind : Kind) : Inv kind .new none where
  watcher := by simp [Object.new, Thread.holds]
  owner := by simp [Object.new]
  fits := rfl
  running := by simp [Object.new]
  joinable := by simp [Object.new]
  idle := fun _ => .inl rfl
  awake := nofun
  untouched := fun _ => ⟨rfl, rfl⟩
  stopped := fun _ => rfl
  destroyed := nofun

namespace Inv

variable {kind : Kind} {o : Object} {pc : Option Pc}

theorem joinable_of_thread (h : Inv kind o pc) (ha : o.thread ≠ .absent) (he : o.thread ≠ .ended) :
    o.joinable = true := by
  by_contra hj
  rw [Bool.not_eq_true] at hj
  exact (h.idle hj).elim ha he

/-- A thread that takes the mutex finds the owner without it. -/
theorem owner_apart (h : Inv kind o pc) (hm : o.mutex = none) : pc.any Pc.holds = false := by
  rw [← Bool.not_eq_true, ← h.owner, hm]
  exact nofun

/-- So does one that has it. -/
theorem owner_apart_of_holds (h : Inv kind o pc) (hh : o.thread.holds kind = true) :
    pc.any Pc.holds = false := by
  rw [← Bool.not_eq_true, ← h.owner, h.watcher.mpr hh]
  exact nofun

/-- A thread that does not have the mutex is where it has no need of it. -/
theorem watcher_apart (h : Inv kind o pc) (hm : o.mutex ≠ some .watcher) :
    o.thread.holds kind = false := by
  rw [← Bool.not_eq_true, ← h.watcher]
  exact hm

/-- The mutex is free where neither of them has it. -/
theorem mutex_free (h : Inv kind o pc) (hw : o.thread.holds kind = false)
    (ho : pc.any Pc.holds = false) : o.mutex = none := by
  cases hm : o.mutex with
  | none => rfl
  | some holder =>
      cases holder with
      | owner => exact absurd (ho.symm.trans (h.owner.mp hm)) Bool.false_ne_true
      | watcher => exact absurd (hw.symm.trans (h.watcher.mp hm)) Bool.false_ne_true

/-- A step of the thread has to keep who has the mutex and what was sent, and
    it must not go to sleep once it was notified. -/
theorem move (h : Inv kind o pc) (hj : o.joinable = true)
    {mutex : Option Holder} {thread : Thread} {sent : List Kill}
    (hw : mutex = some .watcher ↔ thread.holds kind = true)
    (ho : mutex = some .owner ↔ pc.any Pc.holds = true) (hs : thread.Fits kind sent)
    (hp : pc = some .joining → thread ≠ .asleep) :
    Inv kind { o with mutex := mutex, thread := thread, sent := sent } pc where
  watcher := hw
  owner := ho
  fits := hs
  running := h.running
  joinable := h.joinable
  idle hover := absurd (hover.symm.trans hj) Bool.false_ne_true
  awake := hp
  untouched ht := absurd ((congrArg Object.joinable (h.untouched ht).1).symm.trans hj)
    Bool.false_ne_true
  stopped := h.stopped
  destroyed := h.destroyed

/-- The thread goes on without the mutex changing hands. -/
theorem goes (h : Inv kind o pc) (hj : o.joinable = true) {thread : Thread} {sent : List Kill}
    (hh : thread.holds kind = o.thread.holds kind) (hs : thread.Fits kind sent)
    (hp : thread ≠ .asleep) : Inv kind { o with thread := thread, sent := sent } pc :=
  h.move hj (hh ▸ h.watcher) h.owner hs fun _ => hp

/-- It takes the mutex. -/
theorem takes (h : Inv kind o pc) (hj : o.joinable = true) (hm : o.mutex = none) {thread : Thread}
    (hh : thread.holds kind = true) (hs : thread.Fits kind o.sent) :
    Inv kind { o with mutex := some .watcher, thread := thread } pc := by
  refine h.move hj (iff_of_true rfl hh) ?_ hs ?_
  · rw [h.owner_apart hm]
    exact iff_of_false nofun Bool.false_ne_true
  · rintro - rfl
    exact Bool.false_ne_true hh

/-- It gives the mutex up. -/
theorem gives (h : Inv kind o pc) (hj : o.joinable = true) (hold : o.thread.holds kind = true)
    {thread : Thread} (hh : thread.holds kind = false) (hs : thread.Fits kind o.sent)
    (hp : pc = some .joining → thread ≠ .asleep) :
    Inv kind { o with mutex := none, thread := thread } pc := by
  refine h.move hj (iff_of_false nofun ?_) ?_ hs hp
  · exact hh ▸ Bool.false_ne_true
  · rw [h.owner_apart_of_holds hold]
    exact iff_of_false nofun Bool.false_ne_true

end Inv

variable {n : Nat}

/-- The thread keeps the invariant. -/
theorem inv_thread {kind : Kind} {o o' : Object} {pc : Option Pc} {suspicious : Bool}
    (h : Inv kind o pc) (hs : threadStep kind o suspicious = some o') : Inv kind o' pc := by
  have hfits := h.fits
  have hj : o.joinable = true := by
    refine h.joinable_of_thread (fun ht => ?_) (fun ht => ?_)
    · simp [threadStep, ht] at hs
    · simp [threadStep, ht] at hs
  cases ht : o.thread with
  | absent => simp [threadStep, ht] at hs
  | asleep => simp [threadStep, ht] at hs
  | ended => simp [threadStep, ht] at hs
  | locking =>
      simp only [threadStep, ht, Option.ite_none_right_eq_some, Option.some.injEq] at hs
      rw [ht] at hfits
      rcases hs with ⟨hm, rfl⟩
      exact h.takes hj hm rfl hfits
  | waking timedOut =>
      simp only [threadStep, ht, Option.ite_none_right_eq_some, Option.some.injEq] at hs
      rw [ht] at hfits
      rcases hs with ⟨hm, rfl⟩
      exact h.takes hj hm rfl hfits
  | testing timedOut =>
      rw [ht] at hfits
      simp only [threadStep, ht] at hs
      split_ifs at hs with hr hto
      · cases hs
        exact h.goes hj (by rw [ht]; rfl) (.inl hfits) nofun
      · cases hs
        exact h.goes hj (by rw [ht]; rfl) hfits nofun
      · cases hs
        -- It goes to sleep, and so `running_` is true and nobody has notified it.
        have hrunning : o.running = true := by
          simpa only [Bool.not_eq_true', Bool.not_eq_false] using hr
        refine h.gives hj (by rw [ht]; rfl) rfl hfits ?_
        rintro rfl
        exact absurd (h.running hrunning).2 nofun
  | expired =>
      rw [ht] at hfits
      cases kind with
      | timeout =>
          simp only [threadStep, ht] at hs
          split_ifs at hs
          · cases hs
            exact h.goes hj (by rw [ht]; rfl) hfits nofun
          · cases hs
            exact h.goes hj (by rw [ht]; rfl) (.inl hfits) nofun
      | anomaly =>
          simp only [threadStep, ht, Option.some.injEq] at hs
          subst hs
          exact h.gives hj (by rw [ht]; rfl) rfl ⟨rfl, hfits⟩ fun _ => nofun
  | sampling =>
      rw [ht] at hfits
      simp only [threadStep, ht, Option.some.injEq] at hs
      subst hs
      split_ifs
      · exact h.goes hj (by rw [ht]; rfl) (.inl hfits.2) nofun
      · exact h.goes hj (by rw [ht, hfits.1]; rfl) hfits.2 nofun
      · exact h.goes hj (by rw [ht]; rfl) hfits.2 nofun
  | firing =>
      rw [ht] at hfits
      simp only [threadStep, ht, Option.some.injEq] at hs
      subst hs
      exact h.goes hj (by rw [ht]; rfl) (by rw [hfits]; rfl) nofun
  | fired =>
      rw [ht] at hfits
      cases kind with
      | timeout =>
          simp only [threadStep, ht, Option.some.injEq] at hs
          subst hs
          exact h.goes hj (by rw [ht]; rfl) (by rw [hfits]; exact .inr rfl) nofun
      | anomaly =>
          simp only [threadStep, ht, Option.some.injEq] at hs
          subst hs
          exact h.goes hj (by rw [ht]; rfl) (by rw [hfits]; exact .inr rfl) nofun
  | leaving =>
      rw [ht] at hfits
      simp only [threadStep, ht, Option.some.injEq] at hs
      subst hs
      exact h.gives hj (by rw [ht]; rfl) rfl hfits fun _ => nofun

/-- A wait that ends without a notification keeps it. -/
theorem inv_wake {kind : Kind} {o : Object} {pc : Option Pc} (h : Inv kind o pc)
    (ht : o.thread = .asleep) (timedOut : Bool) :
    Inv kind { o with thread := .waking timedOut } pc := by
  have hj : o.joinable = true := h.joinable_of_thread (by rw [ht]; nofun) (by rw [ht]; nofun)
  have hfits := h.fits
  rw [ht] at hfits
  exact h.goes hj (by rw [ht]; rfl) hfits nofun

theorem inv_start (kind : Kind) (pid : Int) : Inv kind (Object.new.start pid) none where
  watcher := by simp only [Object.start, Object.new, reduceCtorEq, Thread.holds, Bool.false_eq_true]
  owner := by
    simp only [Object.start, Object.new, reduceCtorEq, Option.any_none, Bool.false_eq_true]
  fits := rfl
  running := fun _ => ⟨rfl, rfl⟩
  joinable := fun _ => .inl rfl
  idle := nofun
  awake := nofun
  untouched := nofun
  stopped := nofun
  destroyed := nofun

/-- Entering `stop` keeps it. -/
theorem inv_enter {kind : Kind} {o : Object} (h : Inv kind o none) :
    Inv kind { o with touched := true } (some .locking) where
  watcher := h.watcher
  owner := h.owner
  fits := h.fits
  running := h.running
  joinable := h.joinable
  idle := h.idle
  awake := nofun
  untouched := nofun
  stopped := h.stopped
  destroyed := h.destroyed

/-- A `stop` that returns has nothing left to join. -/
theorem Inv.returns {kind : Kind} {o : Object} {pc : Pc} (h : Inv kind o (some pc))
    (hr : o.running = false) (hover : o.thread = .absent ∨ o.thread = .ended)
    {mutex : Option Holder} {joinable : Bool} (hm : mutex = none) (hj : joinable = false)
    (destroying : Bool) :
    Inv kind { o with
      mutex := mutex, joinable := joinable, stopped := true, destroyed := destroying } none where
  watcher := by
    rw [hm]
    exact iff_of_false nofun (by rw [holds_of_over hover]; exact Bool.false_ne_true)
  owner := iff_of_false (by rw [hm]; exact nofun) Bool.false_ne_true
  fits := h.fits
  running hrunning := absurd (hr.symm.trans hrunning) Bool.false_ne_true
  joinable hjoin := absurd (hj.symm.trans hjoin) Bool.false_ne_true
  idle _ := hover
  awake := nofun
  untouched ht := absurd (h.untouched ht).2 nofun
  stopped _ := hj
  destroyed _ := rfl

/-- An owner that is past the test has set `running_` to false. -/
theorem Inv.running_of_stopping {kind : Kind} {o : Object} {pc : Option Pc} (h : Inv kind o pc)
    (hpc : pc.any Pc.stopping = true) : o.running = false := by
  by_contra hr
  rw [Bool.not_eq_false] at hr
  exact Bool.false_ne_true ((h.running hr).2.symm.trans hpc)

/-- The owner keeps the invariant where `stop` returns. -/
theorem inv_returns {kind : Kind} {o o' : Object} {pc : Pc} (h : Inv kind o (some pc))
    (hs : ownerStep o pc = some (o', none)) (destroying : Bool) :
    Inv kind { o' with stopped := true, destroyed := destroying } none := by
  cases pc with
  | locking => simp [ownerStep] at hs
  | unlocking => simp [ownerStep] at hs
  | notifying => simp [ownerStep] at hs
  | testing =>
      -- It has found `running_` false, as it is before `start` and after a `stop`.
      simp only [ownerStep] at hs
      split_ifs at hs with hr
      · cases hs
        have hrunning : o.running = false := by simpa only [Bool.not_eq_true'] using hr
        have hj : o.joinable = false := by
          by_contra hj
          rw [Bool.not_eq_false] at hj
          rcases h.joinable hj with htrue | hstopping
          · exact Bool.false_ne_true (hrunning.symm.trans htrue)
          · exact Bool.false_ne_true hstopping
        exact h.returns hrunning (h.idle hj) rfl hj destroying
      · simp at hs
  | joining =>
      have hrunning : o.running = false := h.running_of_stopping rfl
      -- The thread is over, and neither of them has the mutex.
      have hmutex (hover : o.thread = .absent ∨ o.thread = .ended) : o.mutex = none :=
        h.mutex_free (holds_of_over hover) rfl
      simp only [ownerStep] at hs
      split_ifs at hs with hj ht
      · cases hs
        rw [Bool.not_eq_true'] at hj
        exact h.returns hrunning (h.idle hj) (hmutex (h.idle hj)) hj destroying
      · cases hs
        exact h.returns hrunning (.inr ht) (hmutex (.inr ht)) rfl destroying

/-! A notification changes nothing but that the thread is no longer asleep. -/

theorem holds_notify (kind : Kind) (t : Thread) : t.notify.holds kind = t.holds kind := by
  cases t <;> rfl

theorem fits_notify {kind : Kind} {sent : List Kill} {t : Thread} (h : t.Fits kind sent) :
    t.notify.Fits kind sent := by
  cases t <;> exact h

theorem notify_ne_asleep (t : Thread) : t.notify ≠ .asleep := by
  cases t <;> nofun

theorem notify_of_over {t : Thread} (h : t = .absent ∨ t = .ended) :
    t.notify = .absent ∨ t.notify = .ended := by
  rcases h with rfl | rfl
  · exact .inl rfl
  · exact .inr rfl

/-- The owner keeps the invariant as `stop` goes on. -/
theorem inv_owner {kind : Kind} {o o' : Object} {pc pc' : Pc} (h : Inv kind o (some pc))
    (hs : ownerStep o pc = some (o', some pc')) : Inv kind o' (some pc') := by
  cases pc with
  | locking =>
      simp only [ownerStep, Option.ite_none_right_eq_some, Option.some.injEq, Prod.mk.injEq] at hs
      rcases hs with ⟨hm, rfl, rfl⟩
      have hapart := h.watcher_apart (by rw [hm]; exact nofun)
      exact { h with
        watcher := iff_of_false nofun (by rw [hapart]; exact Bool.false_ne_true)
        owner := iff_of_true rfl rfl
        awake := nofun
        untouched := fun ht => absurd (h.untouched ht).2 nofun }
  | testing =>
      simp only [ownerStep] at hs
      split_ifs at hs with hr
      · simp at hs
      · cases hs
        exact { h with
          running := nofun
          joinable := fun _ => .inr rfl
          awake := nofun
          untouched := fun ht => absurd (h.untouched ht).2 nofun }
  | unlocking =>
      cases hs
      have hmutex := h.owner.mpr rfl
      have hapart := h.watcher_apart (by rw [hmutex]; exact nofun)
      exact { h with
        watcher := iff_of_false nofun (by rw [hapart]; exact Bool.false_ne_true)
        owner := iff_of_false nofun Bool.false_ne_true
        awake := nofun
        untouched := fun ht => absurd (h.untouched ht).2 nofun }
  | notifying =>
      cases hs
      exact { h with
        watcher := h.watcher.trans (by rw [holds_notify])
        fits := fits_notify h.fits
        idle := fun hj => notify_of_over (h.idle hj)
        awake := fun _ => notify_ne_asleep o.thread
        untouched := fun ht => absurd (h.untouched ht).2 nofun }
  | joining =>
      simp only [ownerStep] at hs
      split_ifs at hs
      · simp at hs
      · simp at hs

/-! ## The whole -/

/-- Where the owner is in `stop` of a watchdog. -/
def State.pc (s : State n) (i : Fin n) : Option Pc :=
  s.call.bind fun c => if c.object = i then some c.pc else none

/-- The invariant holds of every watchdog. -/
def Invariant (kinds : Fin n → Kind) (s : State n) : Prop :=
  ∀ i, Inv (kinds i) (s.objects i) (s.pc i)

theorem pc_of_none {s : State n} (h : s.call = none) (i : Fin n) : s.pc i = none := by
  rw [State.pc, h, Option.bind_none]

theorem pc_self {s : State n} {i : Fin n} {destroying : Bool} {place : Pc}
    (h : s.call = some ⟨i, destroying, place⟩) : s.pc i = some place := by
  rw [State.pc, h, Option.bind_some, if_pos rfl]

theorem pc_other {s : State n} {c : Call n} {j : Fin n} (h : s.call = some c) (hj : j ≠ c.object) :
    s.pc j = none := by
  rw [State.pc, h, Option.bind_some, if_neg (Ne.symm hj)]

/-- A step that concerns one watchdog keeps the invariant of the others. -/
theorem invariant_of_one {kinds : Fin n → Kind} {s t : State n} {i : Fin n} {o : Object}
    {pc : Option Pc} (h : Invariant kinds s) (ho : t.objects = Function.update s.objects i o)
    (hpc : t.pc i = pc) (hother : ∀ j ≠ i, t.pc j = s.pc j) (hi : Inv (kinds i) o pc) :
    Invariant kinds t := by
  intro j
  by_cases hj : j = i
  · subst hj
    rw [ho, Function.update_self, hpc]
    exact hi
  · rw [ho, Function.update_of_ne hj, hother j hj]
    exact h j

/-- One step of the whole keeps the invariant. -/
theorem invariant_step {kinds : Fin n → Kind} {s t : State n} {a : Action n}
    (h : Invariant kinds s) (hs : step kinds s a = some t) : Invariant kinds t := by
  cases moves_of_step hs with
  | starts i pid hc ht =>
      have hnew := ((h i).untouched ht).1
      exact invariant_of_one h rfl (pc_of_none hc i) (fun _ _ => rfl)
        (hnew ▸ inv_start (kinds i) pid)
  | enters i destroying hc hd =>
      have hi := h i
      rw [pc_of_none hc] at hi
      refine invariant_of_one h rfl (pc_self rfl) (fun j hj => ?_) (inv_enter hi)
      exact (pc_other rfl hj).trans (pc_of_none hc j).symm
  | proceeds c o pc hc ho =>
      have hi := h c.object
      rw [pc_self hc] at hi
      cases pc with
      | some pc =>
          refine invariant_of_one h rfl (pc_self rfl) (fun j hj => ?_) (inv_owner hi ho)
          exact (pc_other (c := { c with pc := pc }) rfl hj).trans (pc_other hc hj).symm
      | none =>
          refine invariant_of_one h rfl (pc_of_none rfl c.object) (fun j hj => ?_)
            (inv_returns hi ho c.destroying)
          exact (pc_of_none rfl j).trans (pc_other hc hj).symm
  | runs i suspicious o ho =>
      exact invariant_of_one h rfl rfl (fun _ _ => rfl) (inv_thread (h i) ho)
  | wakes i timedOut ht =>
      exact invariant_of_one h rfl rfl (fun _ _ => rfl) (inv_wake (h i) ht timedOut)

theorem invariant_init (kinds : Fin n → Kind) : Invariant kinds (init n) :=
  fun i => inv_new (kinds i)

/-- `stop` sends nothing, and does not take back that it has returned. -/
theorem ownerStep_sent {o o' : Object} {place : Pc} {pc : Option Pc}
    (h : ownerStep o place = some (o', pc)) : o'.stopped = o.stopped ∧ o'.sent = o.sent := by
  cases place with
  | locking =>
      simp only [ownerStep, Option.ite_none_right_eq_some, Option.some.injEq, Prod.mk.injEq] at h
      rcases h with ⟨_, rfl, _⟩
      exact ⟨rfl, rfl⟩
  | testing =>
      simp only [ownerStep] at h
      split_ifs at h
      · cases h
        exact ⟨rfl, rfl⟩
      · cases h
        exact ⟨rfl, rfl⟩
  | unlocking =>
      cases h
      exact ⟨rfl, rfl⟩
  | notifying =>
      cases h
      exact ⟨rfl, rfl⟩
  | joining =>
      simp only [ownerStep] at h
      split_ifs at h
      · cases h
        exact ⟨rfl, rfl⟩
      · cases h
        exact ⟨rfl, rfl⟩

/-- A thread that is over takes no step. -/
theorem threadStep_over {kind : Kind} {o : Object} (h : o.thread = .absent ∨ o.thread = .ended)
    (suspicious : Bool) : threadStep kind o suspicious = none := by
  rcases h with h | h
  · simp only [threadStep, h]
  · simp only [threadStep, h]

/-- A watchdog that was stopped has no thread that could send anything, and
    nothing starts one. -/
theorem quiet_step {kinds : Fin n → Kind} {s t : State n} {a : Action n} {i : Fin n}
    (h : Invariant kinds s) (hstop : (s.objects i).stopped = true) (hs : step kinds s a = some t) :
    (t.objects i).stopped = true ∧ (t.objects i).sent = (s.objects i).sent := by
  have hover := (h i).idle ((h i).stopped hstop)
  -- Only what a step does to the watchdog itself matters.
  have hone {j : Fin n} {o : Object} {u : State n} (hu : u.objects = Function.update s.objects j o)
      (ho : j = i → o.stopped = true ∧ o.sent = (s.objects i).sent) :
      (u.objects i).stopped = true ∧ (u.objects i).sent = (s.objects i).sent := by
    by_cases hj : i = j
    · subst hj
      rw [hu, Function.update_self]
      exact ho rfl
    · rw [hu, Function.update_of_ne hj]
      exact ⟨hstop, rfl⟩
  cases moves_of_step hs with
  | starts j pid hc ht =>
      refine hone rfl ?_
      rintro rfl
      rw [((h j).untouched ht).1] at hstop
      exact absurd hstop Bool.false_ne_true
  | enters j destroying hc hd =>
      refine hone rfl ?_
      rintro rfl
      exact ⟨hstop, rfl⟩
  | proceeds c o pc hc ho =>
      have hsent := ownerStep_sent ho
      cases pc with
      | some pc =>
          refine hone rfl ?_
          rintro rfl
          exact ⟨hsent.1.trans hstop, hsent.2⟩
      | none =>
          refine hone rfl ?_
          rintro rfl
          exact ⟨rfl, hsent.2⟩
  | runs j suspicious o ho =>
      refine hone rfl ?_
      rintro rfl
      rw [threadStep_over hover] at ho
      exact absurd ho nofun
  | wakes j timedOut ht =>
      refine hone rfl ?_
      rintro rfl
      rw [ht] at hover
      exact absurd hover (by simp only [reduceCtorEq, or_self, not_false_eq_true])

/-- A thread that cannot go on sleeps, or finds the mutex taken. -/
theorem watcherWaits_cases {kind : Kind} {o : Object} (h : WatcherWaits kind o) :
    o.thread.holds kind = false ∧ (o.thread = .asleep ∨ o.mutex ≠ none) := by
  rcases h with ⟨habsent, hended, hstep⟩
  have hnone := hstep true
  cases ht : o.thread with
  | absent => exact absurd ht habsent
  | ended => exact absurd ht hended
  | asleep => exact ⟨rfl, .inl rfl⟩
  | locking => 
      refine ⟨rfl, .inr fun hm => ?_⟩
      simp [threadStep, ht, hm] at hnone
  | waking timedOut => 
      refine ⟨rfl, .inr fun hm => ?_⟩
      simp [threadStep, ht, hm] at hnone
  | testing timedOut =>
      simp only [threadStep, ht] at hnone
      split_ifs at hnone
  | expired => cases kind <;> simp [threadStep, ht] at hnone
  | fired => cases kind <;> simp [threadStep, ht] at hnone
  | sampling => simp [threadStep, ht] at hnone
  | firing => simp [threadStep, ht] at hnone
  | leaving => simp [threadStep, ht] at hnone

/-- An owner that cannot go on finds the mutex taken, or joins a thread. -/
theorem ownerWaits_cases {o : Object} {pc : Option Pc} (h : OwnerWaits o pc) :
    (pc = some .locking ∧ o.mutex ≠ none) ∨ pc = some .joining := by
  rcases h with ⟨place, rfl, hnone⟩
  cases place with
  | locking =>
      refine .inl ⟨rfl, fun hm => ?_⟩
      simp [ownerStep, hm] at hnone
  | testing =>
      simp only [ownerStep] at hnone
      split_ifs at hnone
  | unlocking => simp [ownerStep] at hnone
  | notifying => simp [ownerStep] at hnone
  | joining => exact .inr rfl

/-- The owner and the thread of a watchdog do not wait for each other. -/
theorem not_both_wait {kind : Kind} {o : Object} {pc : Option Pc} (h : Inv kind o pc)
    (ho : OwnerWaits o pc) : ¬ WatcherWaits kind o := by
  intro hw
  rcases watcherWaits_cases hw with ⟨hholds, hsleep⟩
  rcases ownerWaits_cases ho with ⟨rfl, hm⟩ | rfl
  · exact hm (h.mutex_free hholds rfl)
  · exact hsleep.elim (h.awake rfl) fun hm => hm (h.mutex_free hholds rfl)

theorem prefix_of_fits {kind : Kind} {sent : List Kill} {t : Thread} (h : t.Fits kind sent) :
    sent <+: [.group, .pid] := by
  have hcases : sent = [] ∨ sent = [.group] ∨ sent = [.group, .pid] := by
    cases t with
    | fired => exact .inr (.inl h)
    | sampling => exact .inl h.2
    | leaving => exact h.imp_right .inr
    | ended => exact h.imp_right .inr
    | absent => exact .inl h
    | locking => exact .inl h
    | testing timedOut => exact .inl h
    | asleep => exact .inl h
    | waking timedOut => exact .inl h
    | expired => exact .inl h
    | firing => exact .inl h
  rcases hcases with rfl | rfl | rfl
  · exact List.nil_prefix
  · exact ⟨[.pid], rfl⟩
  · exact List.prefix_refl _

/-- Whatever the owner calls, and however the threads of the watchdogs run in
    between: a watchdog sends its two signals at most once, it has no running
    thread once a `stop` has returned and sends nothing from then on, it never
    waits for the owner while the owner waits for it, and it is destroyed with
    nothing left to join. -/
theorem quiescence (kinds : Fin n → Kind) {as : List (Action n)} {s : State n}
    (hr : run (step kinds) (init n) as = some s) (i : Fin n) :
    (s.objects i).sent <+: [.group, .pid] ∧
      ((s.objects i).stopped = true →
        (s.objects i).thread = .absent ∨ (s.objects i).thread = .ended) ∧
      ((s.objects i).stopped = true → ∀ bs t, run (step kinds) s bs = some t →
        (t.objects i).sent = (s.objects i).sent) ∧
      ¬ (OwnerWaits (s.objects i) (s.pc i) ∧ WatcherWaits (kinds i) (s.objects i)) ∧
      ((s.objects i).destroyed = true → (s.objects i).joinable = false) := by
  have h : Invariant kinds s :=
    run_invariant (fun _ _ _ => invariant_step) (invariant_init kinds) hr
  refine ⟨prefix_of_fits (h i).fits, fun hs => (h i).idle ((h i).stopped hs), ?_,
    fun hw => not_both_wait (h i) hw.1 hw.2, fun hd => (h i).stopped ((h i).destroyed hd)⟩
  intro hstop bs t ht
  have hkeep : ∀ u b v,
      Invariant kinds u ∧ (u.objects i).stopped = true ∧ (u.objects i).sent = (s.objects i).sent →
      step kinds u b = some v →
      Invariant kinds v ∧ (v.objects i).stopped = true ∧
        (v.objects i).sent = (s.objects i).sent := by
    rintro u b v ⟨hu, hus, hsent⟩ hv
    have hquiet := quiet_step hu hus hv
    exact ⟨invariant_step hu hv, hquiet.1, hquiet.2.trans hsent⟩
  exact (run_invariant hkeep ⟨h, hstop, rfl⟩ ht).2.2

/-- A watchdog whose time runs out is stopped twice and destroyed. -/
def fires (i : Fin n) : List (Action n) :=
  [.start i 7, .thread i false, .thread i false, .wake i true,
    .thread i false, .thread i false, .thread i false, .thread i false, .thread i false,
    .thread i false, .stop i, .owner, .owner, .owner, .owner, .owner,
    .stop i, .owner, .owner, .destroy i, .owner, .owner]

theorem quiescence_fires :
    ∃ s, run (step fun _ => .timeout) (init 1) (fires 0) = some s ∧
      (s.objects 0).sent = [.group, .pid] ∧
      (s.objects 0).destroyed = true ∧ (s.objects 0).joinable = false := by
  have hrun : (run (step fun _ => .timeout) (init 1) (fires 0)).map
      (fun s => ((s.objects 0).sent, (s.objects 0).destroyed)) = some ([.group, .pid], true) := by
    decide
  rcases Option.map_eq_some_iff.mp hrun with ⟨s, hs, heq⟩
  rw [Prod.mk.injEq] at heq
  exact ⟨s, hs, heq.1, heq.2, (quiescence _ hs 0).2.2.2.2 heq.2⟩

end WatcherThread

end Isolyx
