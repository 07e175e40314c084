import Isolyx.Library.Run
import Mathlib.Algebra.Group.Nat.Defs
import Mathlib.Logic.Function.Basic

/-!
# Leaving the Old Root

How the children of any number of launches leave the host's root, from where
`child_entry` has changed to the rootfs: `mkdir` of `oldroot`, `pivot_root`,
`chdir`, `umount2` and `rmdir`. Every child has mounts of its own, but the
directory that is mounted on is in the rootfs, and so it is the same name for
all of them, and for the programs that already run there.

A directory that is mounted on can be removed by whoever has no mount on it in
his own namespace, and that takes the mount away from whoever has. A directory
that is not empty cannot be removed. `mkdir` and `rmdir` are not checked by the
source, the three calls between them are, and end the child where they fail.

Programs in the sandbox may make and remove the name as well, or put a file
there. Renaming it is left out, and so are all reasons for a call to fail that
have nothing to do with the name, except that the rootfs may not be writable.
Directories are told apart by their inodes.

## Main definitions

* `Entry`: What the name `oldroot` is.
* `Stage`: Where a child is.
* `removes`: The directory that `rmdir` removes.
* `step`: The transition function.
* `Moves`: Its transitions, one by one.
-/

namespace Isolyx

namespace OldRoot

/-- What the name is in the rootfs. -/
inductive Entry where
  | absent
  | file
  | dir (inode : Nat) (empty : Bool)
  deriving DecidableEq, Repr

def Entry.inode? : Entry → Option Nat
  | dir i _ => some i
  | _ => none

/-- A call that `child_entry` gives up after. -/
inductive Call where
  | pivotRoot
  | umount2
  deriving DecidableEq, Repr

/-- Where a child is in `child_entry`. -/
inductive Stage where
  | outside
  /-- In the rootfs, about to make the directory. -/
  | bound
  | made
  | pivoted
  /-- About to unmount the old root. -/
  | atRoot
  | detached
  /-- The old root is left. What follows is up to the program. -/
  | running
  | failed (call : Call)
  deriving DecidableEq, Repr

/-- What a program in the sandbox may do to the name. -/
inductive JobOp where
  | mkdir
  | rmdir
  | create
  | unlink
  /-- Make or remove an entry of the directory. -/
  | fill
  | clear
  deriving DecidableEq, Repr

structure State where
  entry : Entry
  nextInode : Nat
  stage : Nat → Stage
  /-- The directory that a child's old root is mounted on. -/
  oldRoot : Nat → Option Nat

inductive Action where
  | enter (c : Nat)
  | mkdir (c : Nat)
  | pivotRoot (c : Nat)
  | chdir (c : Nat)
  | umount2 (c : Nat)
  | rmdir (c : Nat)
  | job (c : Nat) (op : JobOp)
  deriving DecidableEq, Repr

def setStage (s : State) (c : Nat) (v : Stage) : State :=
  { s with stage := Function.update s.stage c v }

/-- `mkdir`, which finds the name or makes it. -/
def makeDir (writable : Bool) (s : State) : State :=
  if writable = true ∧ s.entry = .absent then
    { s with entry := .dir s.nextInode true, nextInode := s.nextInode + 1 }
  else s

/-- The directory that `rmdir` removes for `c`, if it does. -/
def removes (writable : Bool) (s : State) (c : Nat) : Option Nat :=
  match s.entry with
  | .dir i true => if writable = true ∧ s.oldRoot c ≠ some i then some i else none
  | _ => none

/-- `rmdir`. Whatever was mounted on the directory elsewhere is detached. -/
def removeDir (writable : Bool) (s : State) (c : Nat) : State :=
  match removes writable s c with
  | none => s
  | some i => { s with
      entry := .absent
      oldRoot := fun x => if s.oldRoot x = some i then none else s.oldRoot x }

def setEmpty (s : State) (empty : Bool) : State :=
  match s.entry with
  | .dir i _ => { s with entry := .dir i empty }
  | _ => s

def act (writable : Bool) (s : State) (c : Nat) : JobOp → State
  | .mkdir => makeDir writable s
  | .rmdir => removeDir writable s c
  | .create => if writable = true ∧ s.entry = .absent then { s with entry := .file } else s
  | .unlink => if writable = true ∧ s.entry = .file then { s with entry := .absent } else s
  | .fill => setEmpty s false
  | .clear => setEmpty s true

/-- The child's old root is mounted where the name leads. -/
def Attached (s : State) (c : Nat) : Prop :=
  s.oldRoot c ≠ none ∧ s.oldRoot c = s.entry.inode?

instance (s : State) (c : Nat) : Decidable (Attached s c) := inferInstanceAs (Decidable (_ ∧ _))

def step (writable : Bool) (s : State) : Action → Option State
  | .enter c => if s.stage c = .outside then some (setStage s c .bound) else none
  | .mkdir c =>
      if s.stage c = .bound then some (setStage (makeDir writable s) c .made) else none
  | .pivotRoot c =>
      if s.stage c = .made then match s.entry with
        | .dir i _ => some { setStage s c .pivoted with
            oldRoot := Function.update s.oldRoot c (some i) }
        | _ => some (setStage s c (.failed .pivotRoot))
      else none
  | .chdir c => if s.stage c = .pivoted then some (setStage s c .atRoot) else none
  | .umount2 c =>
      if s.stage c = .atRoot then
        if Attached s c then some { setStage s c .detached with
          oldRoot := Function.update s.oldRoot c none }
        else some (setStage s c (.failed .umount2))
      else none
  | .rmdir c =>
      if s.stage c = .detached then some (setStage (removeDir writable s c) c .running) else none
  | .job c op => if s.stage c = .running then some (act writable s c op) else none

/-- No launch was begun, and the name is what it is. -/
def init (entry : Entry) : State where
  entry := entry
  nextInode := match entry with
    | .dir i _ => i + 1
    | _ => 0
  stage := fun _ => .outside
  oldRoot := fun _ => none

/-- The transitions of `step`, one constructor for each outcome of an action. -/
inductive Moves (writable : Bool) (s : State) : Action → State → Prop
  | enters (c : Nat) (hc : s.stage c = .outside) :
      Moves writable s (.enter c) (setStage s c .bound)
  | makes (c : Nat) (hc : s.stage c = .bound) :
      Moves writable s (.mkdir c) (setStage (makeDir writable s) c .made)
  | pivots (c i : Nat) (e : Bool) (hc : s.stage c = .made) (he : s.entry = .dir i e) :
      Moves writable s (.pivotRoot c)
        { setStage s c .pivoted with oldRoot := Function.update s.oldRoot c (some i) }
  | misses (c : Nat) (hc : s.stage c = .made) (he : ∀ i e, s.entry ≠ .dir i e) :
      Moves writable s (.pivotRoot c) (setStage s c (.failed .pivotRoot))
  | changes (c : Nat) (hc : s.stage c = .pivoted) :
      Moves writable s (.chdir c) (setStage s c .atRoot)
  | unmounts (c : Nat) (hc : s.stage c = .atRoot) (ha : Attached s c) :
      Moves writable s (.umount2 c)
        { setStage s c .detached with oldRoot := Function.update s.oldRoot c none }
  | strands (c : Nat) (hc : s.stage c = .atRoot) (ha : ¬ Attached s c) :
      Moves writable s (.umount2 c) (setStage s c (.failed .umount2))
  | removes (c : Nat) (hc : s.stage c = .detached) :
      Moves writable s (.rmdir c) (setStage (removeDir writable s c) c .running)
  | acts (c : Nat) (op : JobOp) (hc : s.stage c = .running) :
      Moves writable s (.job c op) (act writable s c op)

theorem moves_of_step {writable : Bool} {s t : State} {a : Action}
    (h : step writable s a = some t) : Moves writable s a t := by
  cases a with
  | enter c =>
      simp only [step, Option.ite_none_right_eq_some, Option.some.injEq] at h
      exact h.2 ▸ .enters c h.1
  | mkdir c =>
      simp only [step, Option.ite_none_right_eq_some, Option.some.injEq] at h
      exact h.2 ▸ .makes c h.1
  | pivotRoot c =>
      simp only [step, Option.ite_none_right_eq_some] at h
      rcases h with ⟨hc, h⟩
      cases he : s.entry with
      | dir i e =>
          simp only [he, Option.some.injEq] at h
          exact h ▸ .pivots c i e hc he
      | absent | file =>
          simp only [he, Option.some.injEq] at h
          exact h ▸ .misses c hc fun i e hd => by simp [he] at hd
  | chdir c =>
      simp only [step, Option.ite_none_right_eq_some, Option.some.injEq] at h
      exact h.2 ▸ .changes c h.1
  | umount2 c =>
      simp only [step, Option.ite_none_right_eq_some] at h
      rcases h with ⟨hc, h⟩
      split at h
      · rename_i ha
        exact Option.some.inj h ▸ .unmounts c hc ha
      · rename_i ha
        exact Option.some.inj h ▸ .strands c hc ha
  | rmdir c =>
      simp only [step, Option.ite_none_right_eq_some, Option.some.injEq] at h
      exact h.2 ▸ .removes c h.1
  | job c op =>
      simp only [step, Option.ite_none_right_eq_some, Option.some.injEq] at h
      exact h.2 ▸ .acts c op h.1

end OldRoot

end Isolyx
