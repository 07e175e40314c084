import Isolyx.Core.Collection

/-!
# Collecting the Outputs Comes to an End

The loop of `read_and_delete` reads until there is nothing more, and how much
there is was up to the program. Of a regular file there is an end, however long
it is. But the program may have put something else in its place, and what it
put there is resolved and opened by the engine, outside of the sandbox: a FIFO
that nobody will ever write to, or a link to a device without an end.

Whether the two calls return is a matter of the two objects, which are looked
up one after the other, the second after the first path was unlinked
(`collection_ends_iff`). That the calls return if the objects end is an
induction over the reads that are left; that they return only then is an
invariant, which says of each point what must have returned before it.

## Main definitions

* `Object.ends`: Reading an object comes to an end.
* `EndsAt`: So does reading what is behind a path.
* `afterOutput`: The file system after one call of `read_and_delete`.

## Theorems

* `endsAt_iff`: The same, said of what the system calls come to.
* `reads_end`: The loop of reads.
* `output_ends`: One call of `read_and_delete`.
* `returned_step`: What must have returned before each point.
* `collection_ends_iff`: Both calls.
-/

namespace Isolyx

namespace Collection

open Lts
open PathWalk (walk)
open Rootfs (Loc Path maxSymlinks)
open SharedTmp (Output)

/-- Opening an object for reading and reading it comes to an end. -/
def Object.ends : Object → Prop
  | regular _ => True
  | fifo => False
  | special .succeeds answer => ∃ k, answer k = some [] ∧ ∀ j < k, answer j ≠ none
  | special .fails _ => True
  | special .blocks _ => False

/-- Opening a path for reading and reading what is behind it comes to an end. -/
def EndsAt (h : Host) (path : Path) : Prop :=
  match walk h.node maxSymlinks [] path with
  | .found p => h.mayOpen p = false ∨ match h.node p with
      | some (.file object) => object.ends
      | _ => True
  | _ => True

/-- The file system after `read_and_delete` of a path has returned. -/
def afterOutput (h : Host) (path : Path) : Host :=
  match h.openPath path with
  | (.succeeds, _) => h.unlink path
  | _ => h

/-- The reads of an open object come to an end. -/
def ReadsEnd (h : Host) (p : Loc) : Prop :=
  ∃ k, h.read p k = some [] ∧ ∀ j < k, h.read p j ≠ none

theorem ends_iff {object : Object} :
    object.ends ↔ match object.opening with
      | .succeeds => ∃ k, object.answer k = some [] ∧ ∀ j < k, object.answer j ≠ none
      | .fails => True
      | .blocks => False := by
  cases object with
  | regular content =>
      refine iff_of_true trivial ⟨content.length, ?_, fun j _ => Option.some_ne_none _⟩
      rw [Object.answer, List.drop_eq_nil_of_le (by omega), List.take_nil]
  | fifo => exact Iff.rfl
  | special opening answer => cases opening <;> exact Iff.rfl

/-- What is no object is read at once, or not at all. -/
theorem readsEnd_of_no_object {h : Host} {p : Loc} (hn : ∀ object, h.node p ≠ some (.file object)) :
    ReadsEnd h p := by
  refine ⟨0, ?_, fun j hj => absurd hj (Nat.not_lt_zero j)⟩
  rw [Host.read]
  split
  · rename_i object heq
    exact absurd heq (hn object)
  · rfl

theorem endsAt_iff {h : Host} {path : Path} :
    EndsAt h path ↔ match h.openPath path with
      | (.succeeds, p) => ReadsEnd h p
      | (.fails, _) => True
      | (.blocks, _) => False := by
  simp only [EndsAt, Host.openPath]
  cases hw : walk h.node maxSymlinks [] path with
  | missing p rest => exact Iff.rfl
  | failed => exact Iff.rfl
  | found p =>
      cases hm : h.mayOpen p with
      | false => simp only [hm, true_or, Bool.false_eq_true, if_false]
      | true =>
          simp only [hm, Bool.true_eq_false, false_or, if_true]
          cases hn : h.node p with
          | none =>
              rw [true_iff]
              exact readsEnd_of_no_object (by simp [hn])
          | some node =>
              cases node with
              | dir =>
                  rw [true_iff]
                  exact readsEnd_of_no_object (by simp [hn])
              | link target =>
                  rw [true_iff]
                  exact readsEnd_of_no_object (by simp [hn])
              | file object =>
                  have hread : ∀ k, h.read p k = object.answer k := by
                    intro k
                    rw [Host.read, hn]
                  have hreads : ReadsEnd h p ↔ ∃ k, object.answer k = some [] ∧
                      ∀ j < k, object.answer j ≠ none := by
                    simp only [ReadsEnd, hread]
                  cases ho : object.opening with
                  | succeeds =>
                      simp only [ends_iff, ho]
                      exact hreads.symm
                  | fails => simp only [ends_iff, ho]
                  | blocks => simp only [ends_iff, ho]

/-! ## They return -/

theorem append_host (s : State) (o : Output) (bytes : Bytes) :
    (append s o bytes).host = s.host := by
  cases o <;> rfl

/-- The loop of reads comes to its end. -/
theorem reads_end (setup : Setup) {o : Output} {p : Loc} {n : Nat} :
    ∀ {s : State} {k : Nat}, s.phase = .reading o p k → s.host.read p (k + n) = some [] →
      (∀ j < k + n, s.host.read p j ≠ none) →
      ∃ m t, run (step setup) s (List.replicate m ()) = some t ∧ t.phase = .closing o ∧
        t.host = s.host := by
  induction n with
  | zero =>
      intro s k hp hlast _
      have hstep : step setup s () = some { s with phase := .closing o } := by
        simp only [step, hp, Nat.add_zero] at hlast ⊢
        rw [hlast]
      exact ⟨1, _, run_cons.mpr ⟨_, hstep, rfl⟩, rfl, rfl⟩
  | succ n ih =>
      intro s k hp hlast hbytes
      cases hread : s.host.read p k with
      | none => exact absurd hread (hbytes k (by omega))
      | some bytes =>
          cases bytes with
          | nil =>
              have hstep : step setup s () = some { s with phase := .closing o } := by
                simp only [step, hp, hread]
              exact ⟨1, _, run_cons.mpr ⟨_, hstep, rfl⟩, rfl, rfl⟩
          | cons b bytes =>
              have hstep : step setup s () =
                  some { append s o (b :: bytes) with phase := .reading o p (k + 1) } := by
                simp only [step, hp, hread]
              have hhost := append_host s o (b :: bytes)
              have hk : k + 1 + n = k + (n + 1) := by omega
              rcases ih (s := { append s o (b :: bytes) with phase := .reading o p (k + 1) }) rfl
                (by rw [hk, hhost]; exact hlast) (by rw [hk, hhost]; exact hbytes) with
                ⟨m, t, hr, ht, hth⟩
              exact ⟨m + 1, t, run_cons.mpr ⟨_, hstep, hr⟩, ht, hth.trans hhost⟩

/-- One call of `read_and_delete` returns. -/
theorem output_ends (setup : Setup) {s : State} {o : Output} (hp : s.phase = .opening o)
    (hends : EndsAt s.host (setup.path o)) :
    ∃ n t, run (step setup) s (List.replicate n ()) = some t ∧ t.phase = next o ∧
      t.host = afterOutput s.host (setup.path o) := by
  rw [endsAt_iff] at hends
  cases hopen : s.host.openPath (setup.path o) with
  | mk opening p =>
      rw [hopen] at hends
      cases opening with
      | blocks => exact absurd hends id
      | fails =>
          have hstep : step setup s () = some { s with phase := next o } := by
            simp only [step, hp, hopen]
          refine ⟨1, _, run_cons.mpr ⟨_, hstep, rfl⟩, rfl, ?_⟩
          rw [afterOutput, hopen]
      | succeeds =>
          rcases hends with ⟨k, hlast, hbytes⟩
          have hstep : step setup s () = some { s with phase := .reading o p 0 } := by
            simp only [step, hp, hopen]
          have hreading := reads_end setup (s := { s with phase := .reading o p 0 }) (n := k) rfl
            (by rw [Nat.zero_add]; exact hlast) (by rw [Nat.zero_add]; exact hbytes)
          rcases hreading with ⟨m, t, hr, ht, hth⟩
          -- Then the descriptor is closed and the path is unlinked.
          have hclose : step setup t () = some { t with phase := .unlinking o } := by
            simp only [step, ht]
          have hunlink : step setup { t with phase := .unlinking o } () =
              some { t with host := t.host.unlink (setup.path o), phase := next o } := rfl
          have hrest : run (step setup) t (List.replicate 2 ()) =
              some { t with host := t.host.unlink (setup.path o), phase := next o } :=
            run_cons.mpr ⟨_, hclose, run_cons.mpr ⟨_, hunlink, rfl⟩⟩
          refine ⟨1 + (m + 2), { t with host := t.host.unlink (setup.path o), phase := next o }, ?_,
            rfl, ?_⟩
          · rw [← List.replicate_append_replicate, ← List.replicate_append_replicate]
            exact run_append.mpr ⟨_, run_cons.mpr ⟨_, hstep, rfl⟩, run_append.mpr ⟨t, hr, hrest⟩⟩
          · rw [afterOutput, hopen, hth]

/-! ## They return only then -/

/-- The file system in which an output is opened. -/
def hostAt (setup : Setup) (h : Host) : Output → Host
  | .out => h
  | .err => afterOutput h (setup.path .out)

/-- The output before has come to its end. -/
def Before (setup : Setup) (h : Host) : Output → Prop
  | .out => True
  | .err => EndsAt h (setup.path .out)

/-- What is known at each point of the collection. -/
def Returned (setup : Setup) (h : Host) (s : State) : Prop :=
  match s.phase with
  | .opening o => Before setup h o ∧ s.host = hostAt setup h o
  | .reading o p k =>
      Before setup h o ∧ s.host = hostAt setup h o ∧
        s.host.openPath (setup.path o) = (.succeeds, p) ∧ ∀ j < k, s.host.read p j ≠ none
  | .closing o | .unlinking o =>
      Before setup h o ∧ s.host = hostAt setup h o ∧
        EndsAt (hostAt setup h o) (setup.path o) ∧
        ∃ p, s.host.openPath (setup.path o) = (.succeeds, p)
  | .done => EndsAt h (setup.path .out) ∧ EndsAt (hostAt setup h .err) (setup.path .err)

/-- An output has come to its end, and the next one is opened, if there is one. -/
theorem returned_next {setup : Setup} {h : Host} {s : State} {o : Output}
    (hb : Before setup h o) (hends : EndsAt (hostAt setup h o) (setup.path o))
    (hp : s.phase = next o) (hhost : s.host = afterOutput (hostAt setup h o) (setup.path o)) :
    Returned setup h s := by
  rw [Returned, hp]
  cases o with
  | out => exact ⟨hends, hhost⟩
  | err => exact ⟨hb, hends⟩

theorem returned_step {setup : Setup} {h : Host} {s t : State} {a : Unit}
    (hs : Returned setup h s) (hstep : step setup s a = some t) : Returned setup h t := by
  rw [Returned] at hs
  cases hp : s.phase with
  | opening o =>
      simp only [hp] at hs
      cases hopen : s.host.openPath (setup.path o) with
      | mk opening p =>
          cases opening with
          | succeeds =>
              simp only [step, hp, hopen, Option.some.injEq] at hstep
              rw [← hstep]
              exact ⟨hs.1, hs.2, hopen, fun j hj => absurd hj (Nat.not_lt_zero j)⟩
          | fails =>
              simp only [step, hp, hopen, Option.some.injEq] at hstep
              rw [hs.2] at hopen
              refine returned_next hs.1 (endsAt_iff.mpr ?_) (hstep ▸ rfl) ?_
              · rw [hopen]
                trivial
              · rw [afterOutput, hopen, ← hs.2, ← hstep]
          | blocks => simp only [step, hp, hopen, reduceCtorEq] at hstep
  | reading o p k =>
      simp only [hp] at hs
      rcases hs with ⟨hb, hhost, hopen, hbytes⟩
      cases hread : s.host.read p k with
      | none => simp only [step, hp, hread, reduceCtorEq] at hstep
      | some bytes =>
          cases bytes with
          | nil =>
              simp only [step, hp, hread, Option.some.injEq] at hstep
              have hends : EndsAt s.host (setup.path o) := by
                rw [endsAt_iff, hopen]
                exact ⟨k, hread, hbytes⟩
              rw [← hstep]
              exact ⟨hb, hhost, hhost ▸ hends, p, hopen⟩
          | cons b bytes =>
              simp only [step, hp, hread, Option.some.injEq] at hstep
              rw [← hstep]
              simp only [Returned, append_host]
              refine ⟨hb, hhost, hopen, fun j hj => ?_⟩
              rcases Nat.lt_succ_iff_lt_or_eq.mp hj with hlt | rfl
              · exact hbytes j hlt
              · rw [hread]
                exact Option.some_ne_none _
  | closing o =>
      simp only [hp] at hs
      simp only [step, hp, Option.some.injEq] at hstep
      rw [← hstep]
      exact hs
  | unlinking o =>
      simp only [hp] at hs
      simp only [step, hp, Option.some.injEq] at hstep
      rcases hs with ⟨hb, hhost, hends, p, hopen⟩
      refine returned_next hb hends (hstep ▸ rfl) ?_
      rw [hhost] at hopen
      rw [afterOutput, hopen, ← hhost, ← hstep]
  | done => simp only [step, hp, reduceCtorEq] at hstep

/-- Both calls of `read_and_delete` return exactly if each of the two objects
    ends, the second being looked up after the first path was unlinked. -/
theorem collection_ends_iff (setup : Setup) (h : Host) :
    (∃ n t, run (step setup) (init h) (List.replicate n ()) = some t ∧ t.phase = .done) ↔
      EndsAt h (setup.path .out) ∧
        EndsAt (afterOutput h (setup.path .out)) (setup.path .err) := by
  constructor
  · rintro ⟨n, t, hr, ht⟩
    have hstart : Returned setup h (init h) := ⟨trivial, rfl⟩
    have hreturned : Returned setup h t :=
      run_invariant (P := Returned setup h) (fun _ _ _ hs hstep => returned_step hs hstep) hstart hr
    simp only [Returned, ht] at hreturned
    exact hreturned
  · rintro ⟨hout, herr⟩
    rcases output_ends setup (s := init h) (o := .out) rfl hout with ⟨m, t, hr, ht, hth⟩
    rcases output_ends setup (s := t) (o := .err) ht (hth ▸ herr) with ⟨n, u, hr', hu, -⟩
    refine ⟨m + n, u, ?_, hu⟩
    rw [← List.replicate_append_replicate]
    exact run_append.mpr ⟨t, hr, hr'⟩

/-- A directory for sandboxes at `/r`, in which the first job has put something
    in the place of its standard output. -/
def replaced (x : Node) : Host where
  node p :=
    if p = [] ∨ p = [ascii "r"] ∨ p = [ascii "r", ascii "tmp"] then some .dir
    else if p = [ascii "r", ascii "tmp", ascii "isolyx_out_1"] then some x
    else none
  mayOpen _ := true
  mayUnlink _ := true

/-- The first job has made a FIFO: the engine never gets past its first `open`. -/
theorem fifo_blocks :
    ¬ ∃ n t, run (step ⟨[ascii "r"], 1⟩) (init (replaced (.file .fifo))) (List.replicate n ()) =
      some t ∧ t.phase = .done := by
  rintro ⟨n, t, hr, ht⟩
  have hstep : step ⟨[ascii "r"], 1⟩ (init (replaced (.file .fifo))) () = none := rfl
  cases n with
  | zero =>
      rw [← Option.some.inj hr] at ht
      exact absurd ht (by simp [init])
  | succ n =>
      rcases run_cons.mp hr with ⟨u, hu, -⟩
      exact absurd (hstep.symm.trans hu) (by simp)

end Collection

end Isolyx
