import Isolyx.Core.OldRoot

/-!
# Launches That Share a Directory

What concurrent launches do to each other by way of `oldroot`. The directory is
shared, the mounts are not: a child that has done with it removes it, and with
it the mount of any child that has not. That child then fails at `umount2`, or
already at `pivot_root` if it had only made the directory.

An old root is mounted on the directory as long as nobody else removes it
(`mounted_moves`), so which launches fail is known from the removals, and from
the calls of `pivot_root` that do not find the directory (`launches_spared_iff`).
Launches whose windows, from `mkdir` to `rmdir`, do not overlap spare each
other, if the programs in the sandbox leave the name alone, the rootfs is
writable and no file has that name. So do all launches around a directory that
cannot be removed, since it is not empty or the rootfs is not writable
(`launches_apart`).

## Main definitions

* `OnOldRoot`: A child's old root is mounted on the directory.
* `Spared`: No launch has failed.
* `Fair`: A step that spares the others.
* `Alone`: A launch begins while nobody else is in between.
* `Kept`: A directory that cannot be removed.

## Theorems

* `mounted_moves`: A mount is where the name leads.
* `lost_moves`: An old root that is lost stays so.
* `launches_spared_iff`: No launch fails exactly when all steps are fair.
* `launches_apart`: Launches that do not overlap spare each other.
-/

namespace Isolyx

namespace OldRoot

variable {writable : Bool} {s t : State} {a : Action}

/-- The child is between `pivot_root` and `umount2`. -/
def OnOldRoot (v : Stage) : Prop := v = .pivoted ∨ v = .atRoot

instance (v : Stage) : Decidable (OnOldRoot v) := inferInstanceAs (Decidable (_ ∨ _))

/-- No launch has failed. -/
def Spared (s : State) : Prop := ∀ c call, s.stage c ≠ .failed call

/-- Whoever makes a step, whom it is about, and the directory it removes. -/
def removal (writable : Bool) (s : State) : Action → Option Nat
  | .rmdir c => removes writable s c
  | .job c .rmdir => removes writable s c
  | _ => none

/-- `pivot_root` finds the directory, and nobody removes it while an old root
    is mounted on it. -/
def Fair (writable : Bool) (s : State) (a : Action) : Prop :=
  (∀ c, a = .pivotRoot c → s.entry.inode? ≠ none) ∧
    (removal writable s a ≠ none → ∀ c, ¬ OnOldRoot (s.stage c))

theorem setStage_stage (s : State) (c x : Nat) (v : Stage) :
    (setStage s c v).stage x = if x = c then v else s.stage x :=
  Function.update_apply s.stage c v x

theorem makeDir_stage : (makeDir writable s).stage = s.stage := by
  unfold makeDir
  split <;> rfl

theorem makeDir_oldRoot : (makeDir writable s).oldRoot = s.oldRoot := by
  unfold makeDir
  split <;> rfl

theorem removeDir_stage (c : Nat) : (removeDir writable s c).stage = s.stage := by
  unfold removeDir
  split <;> rfl

theorem act_stage (c : Nat) (op : JobOp) : (act writable s c op).stage = s.stage := by
  cases op with
  | mkdir => exact makeDir_stage
  | rmdir => exact removeDir_stage c
  | create | unlink => simp only [act]; split <;> rfl
  | fill | clear => simp only [act, setEmpty]; split <;> rfl

/-! ## Mounts -/

/-- A mount is where the name leads. -/
def Mounted (s : State) : Prop := ∀ c i, s.oldRoot c = some i → s.entry.inode? = some i

theorem removes_entry {c i : Nat} (h : removes writable s c = some i) :
    s.entry = .dir i true ∧ writable = true ∧ s.oldRoot c ≠ some i := by
  unfold removes at h
  split at h
  · rename_i j he
    rw [Option.ite_none_right_eq_some, Option.some.injEq] at h
    exact ⟨h.2 ▸ he, h.1.1, h.2 ▸ h.1.2⟩
  · simp only [reduceCtorEq] at h

theorem mounted_makeDir (writable : Bool) (h : Mounted s) : Mounted (makeDir writable s) := by
  unfold makeDir
  split
  · rename_i habsent
    intro c i hc
    have hi := h c i hc
    rw [habsent.2] at hi
    simp only [Entry.inode?, reduceCtorEq] at hi
  · exact h

theorem mounted_removeDir (writable : Bool) (h : Mounted s) (c : Nat) :
    Mounted (removeDir writable s c) := by
  unfold removeDir
  split
  · exact h
  · rename_i i hi
    intro x j hx
    simp only [Option.ite_none_left_eq_some] at hx
    -- every mount was on the directory that is removed
    have hj := h x j hx.2
    rw [(removes_entry hi).1] at hj
    exact absurd (Option.some.inj hj ▸ hx.2) hx.1

theorem mounted_act (h : Mounted s) (c : Nat) (op : JobOp) : Mounted (act writable s c op) := by
  cases op with
  | mkdir => exact mounted_makeDir writable h
  | rmdir => exact mounted_removeDir writable h c
  | create | unlink =>
      simp only [act]
      split
      · rename_i hnodir
        intro x i hx
        have hi := h x i hx
        rw [hnodir.2] at hi
        simp only [Entry.inode?, reduceCtorEq] at hi
      · exact h
  | fill | clear =>
      simp only [act, setEmpty]
      split
      · rename_i j e he
        intro x i hx
        have hi := h x i hx
        rw [he] at hi
        exact hi
      · exact h

theorem mounted_moves (hs : Mounted s) (h : Moves writable s a t) : Mounted t := by
  cases h with
  | enters c hc | misses c hc | changes c hc | strands c hc => exact hs
  | makes c hc => exact mounted_makeDir writable hs
  | pivots c i e hc he =>
      intro x j hx
      have hx : Function.update s.oldRoot c (some i) x = some j := hx
      by_cases hxc : x = c
      · rw [hxc, Function.update_self] at hx
        rw [← hx]
        exact congrArg Entry.inode? he
      · rw [Function.update_of_ne hxc] at hx
        exact hs x j hx
  | unmounts c hc ha =>
      intro x j hx
      have hx : Function.update s.oldRoot c none x = some j := hx
      by_cases hxc : x = c
      · rw [hxc, Function.update_self] at hx
        simp only [reduceCtorEq] at hx
      · rw [Function.update_of_ne hxc] at hx
        exact hs x j hx
  | removes c hc => exact mounted_removeDir writable hs c
  | acts c op hc => exact mounted_act hs c op

/-- So a child finds its old root where it left it, as long as it has one. -/
theorem attached_iff (hs : Mounted s) (c : Nat) : Attached s c ↔ s.oldRoot c ≠ none := by
  refine ⟨fun h => h.1, fun h => ⟨h, ?_⟩⟩
  rcases Option.ne_none_iff_exists'.mp h with ⟨i, hi⟩
  rw [hi, hs c i hi]

/-! ## Children that fail -/

/-- A child that has not failed, and has its old root where it needs it. -/
def Safe (s : State) (c : Nat) : Prop :=
  (∀ call, s.stage c ≠ .failed call) ∧ (OnOldRoot (s.stage c) → s.oldRoot c ≠ none)

theorem Safe.congr {c : Nat} (hstage : t.stage c = s.stage c) (hroot : t.oldRoot c = s.oldRoot c) :
    Safe t c ↔ Safe s c := by
  rw [Safe, Safe, hstage, hroot]

/-- Where a child has no mount, only its stage matters. -/
theorem safe_of_stage {c : Nat} {v : Stage} (hv : t.stage c = v)
    (hfailed : ∀ call, v ≠ .failed call) (hon : ¬ OnOldRoot v) : Safe t c :=
  ⟨hv ▸ hfailed, fun h => absurd (hv ▸ h) hon⟩

/-- What a removal takes from a child, if it does. -/
theorem removeDir_oldRoot (c x : Nat) :
    (removeDir writable s c).oldRoot x = s.oldRoot x ∨
      removes writable s c ≠ none ∧ (removeDir writable s c).oldRoot x = none := by
  unfold removeDir
  cases hr : removes writable s c with
  | none => exact .inl rfl
  | some i =>
      by_cases hx : s.oldRoot x = some i
      · exact .inr ⟨Option.some_ne_none i, if_pos hx⟩
      · exact .inl (if_neg hx)

/-- A removal takes the mount from every child that has one. -/
theorem removeDir_takes (hs : Mounted s) {c : Nat} (hr : removes writable s c ≠ none) (x : Nat) :
    (removeDir writable s c).oldRoot x = none := by
  rcases Option.ne_none_iff_exists'.mp hr with ⟨i, hi⟩
  unfold removeDir
  rw [hi]
  cases hx : s.oldRoot x with
  | none => simp only [hx, reduceCtorEq, if_false]
  | some j =>
      have hj := hs x j hx
      rw [(removes_entry hi).1] at hj
      simp only [hx, Option.some.inj hj, if_true]

theorem act_oldRoot (c x : Nat) (op : JobOp) :
    (act writable s c op).oldRoot x = s.oldRoot x ∨
      op = .rmdir ∧ removes writable s c ≠ none ∧ (act writable s c op).oldRoot x = none := by
  cases op with
  | mkdir => exact .inl (congrFun makeDir_oldRoot x)
  | rmdir => exact (removeDir_oldRoot c x).imp_right fun h => ⟨rfl, h⟩
  | create | unlink => simp only [act]; split <;> exact .inl rfl
  | fill | clear => simp only [act, setEmpty]; split <;> exact .inl rfl

/-- The child, or the program, that makes a step. -/
def actor : Action → Nat
  | .enter c | .mkdir c | .pivotRoot c | .chdir c | .umount2 c | .rmdir c | .job c _ => c

/-- All a step does to another child is to take its mount. -/
theorem others_moves (h : Moves writable s a t) {x : Nat} (hx : x ≠ actor a) :
    t.stage x = s.stage x ∧ (t.oldRoot x = s.oldRoot x ∨
      removal writable s a ≠ none ∧ t.oldRoot x = none) := by
  cases h with
  | enters c hc | misses c hc | changes c hc | strands c hc =>
      exact ⟨Function.update_of_ne hx _ _, .inl rfl⟩
  | makes c hc =>
      exact ⟨(Function.update_of_ne hx _ _).trans (congrFun makeDir_stage x),
        .inl (congrFun makeDir_oldRoot x)⟩
  | pivots c i e hc | unmounts c hc =>
      exact ⟨Function.update_of_ne hx _ _, .inl (Function.update_of_ne hx _ _)⟩
  | removes c hc =>
      exact ⟨(Function.update_of_ne hx _ _).trans (congrFun (removeDir_stage c) x),
        removeDir_oldRoot c x⟩
  | acts c op hc =>
      refine ⟨congrFun (act_stage c op) x, (act_oldRoot c x op).imp_right ?_⟩
      rintro ⟨rfl, hr⟩
      exact hr

theorem safe_moves (hs : Mounted s) (hf : Fair writable s a) (h : Moves writable s a t) {x : Nat}
    (hx : Safe s x) : Safe t x := by
  by_cases hself : x = actor a
  · subst hself
    cases h with
    | enters c hc | removes c hc | unmounts c hc ha | makes c hc =>
        refine safe_of_stage (Function.update_self _ _ _) (by simp) ?_
        simp only [OnOldRoot, reduceCtorEq, or_self, not_false_eq_true]
    | pivots c i e hc he =>
        refine ⟨fun call hcall => ?_, fun _ (hnone : Function.update s.oldRoot c _ c = _) => ?_⟩
        · exact Stage.noConfusion ((Function.update_self _ _ _).symm.trans hcall)
        · rw [Function.update_self] at hnone
          exact Option.some_ne_none i hnone
    | misses c hc he =>
        -- the step was fair, so the directory was there
        rcases Option.ne_none_iff_exists'.mp (hf.1 c rfl) with ⟨i, hi⟩
        cases hent : s.entry with
        | dir j e => exact absurd hent (he j e)
        | absent | file => simp only [hent, Entry.inode?, reduceCtorEq] at hi
    | changes c hc =>
        refine ⟨fun call hcall => ?_, fun _ => hx.2 (.inl hc)⟩
        exact Stage.noConfusion ((Function.update_self _ _ _).symm.trans hcall)
    | strands c hc ha => exact absurd ((attached_iff hs c).mpr (hx.2 (.inr hc))) ha
    | acts c op hc =>
        refine safe_of_stage ((congrFun (act_stage c op) c).trans hc) (by simp) ?_
        simp only [OnOldRoot, reduceCtorEq, or_self, not_false_eq_true]
  · rcases others_moves h hself with ⟨hstage, hroot | ⟨hr, _⟩⟩
    · exact (Safe.congr hstage hroot).mpr hx
    · exact safe_of_stage hstage hx.1 (hf.2 hr x)

/-- A child that has lost its old root, or failed, is not safe again. -/
theorem lost_moves (h : Moves writable s a t) {x : Nat} (hx : ¬ Safe s x) :
    ¬ Safe t x := by
  intro ht
  by_cases hself : x = actor a
  · subst hself
    -- in most places a child is safe, whatever its mount
    have hsafe : ∀ {v}, s.stage (actor a) = v → (∀ call, v ≠ .failed call) → ¬ OnOldRoot v →
        False := fun hv hfailed hon => hx (safe_of_stage hv hfailed hon)
    cases h with
    | enters c hc | makes c hc | pivots c i e hc he | misses c hc he | removes c hc
      | acts c op hc =>
        exact hsafe hc (by simp) (by simp [OnOldRoot])
    | changes c hc =>
        refine hx ⟨fun call hcall => ?_, fun _ => ht.2 (.inr (Function.update_self _ _ _))⟩
        exact Stage.noConfusion (hc.symm.trans hcall)
    | unmounts c hc ha =>
        refine hx ⟨fun call hcall => ?_, fun _ => ha.1⟩
        exact Stage.noConfusion (hc.symm.trans hcall)
    | strands c hc ha => exact ht.1 _ (Function.update_self _ _ _)
  · rcases others_moves h hself with ⟨hstage, hroot | ⟨hr, hnone⟩⟩
    · exact hx ((Safe.congr hstage hroot).mp ht)
    · refine hx ⟨hstage ▸ ht.1, fun hon => ?_⟩
      exact absurd hnone (ht.2 (hstage.symm ▸ hon))

/-- A step that is not fair leaves a child that is not safe. -/
theorem lost_of_unfair (hs : Mounted s) (h : Moves writable s a t) (hf : ¬ Fair writable s a) :
    ∃ x, ¬ Safe t x := by
  by_cases hpivot : ∀ c, a = .pivotRoot c → s.entry.inode? ≠ none
  · have hremoval : removal writable s a ≠ none ∧ ∃ c, OnOldRoot (s.stage c) := by
      by_contra hnone
      exact hf ⟨hpivot, fun hr c hc => hnone ⟨hr, c, hc⟩⟩
    rcases hremoval with ⟨hr, x, hx⟩
    refine ⟨x, fun ht => ?_⟩
    cases h with
    | removes c hc =>
        have hxc : x ≠ c := by
          rintro rfl
          simp only [hc, OnOldRoot, reduceCtorEq, or_self] at hx
        have hstage : (setStage (removeDir writable s c) c .running).stage x = s.stage x :=
          (Function.update_of_ne hxc _ _).trans (congrFun (removeDir_stage c) x)
        exact ht.2 (hstage.symm ▸ hx) (removeDir_takes hs hr x)
    | acts c op hc =>
        cases op with
        | rmdir => exact ht.2 ((congrFun (removeDir_stage c) x).symm ▸ hx) (removeDir_takes hs hr x)
        | _ => exact hr rfl
    | _ => exact hr rfl
  · simp only [not_forall, not_not] at hpivot
    rcases hpivot with ⟨c, rfl, hnone⟩
    refine ⟨c, fun ht => ?_⟩
    cases h with
    | pivots c i e hc he => simp only [he, Entry.inode?, reduceCtorEq] at hnone
    | misses c hc he => exact ht.1 _ (Function.update_self _ _ _)

/-! ## Which launches fail -/

theorem mounted_init (entry : Entry) : Mounted (init entry) :=
  fun _ i h => absurd h.symm (Option.some_ne_none i)

theorem safe_init (entry : Entry) (c : Nat) : Safe (init entry) c :=
  safe_of_stage (v := .outside) rfl (by simp) (by simp [OnOldRoot])

/-- Whatever the rootfs and the name are, for any number of launches, any
    programs in the sandbox and any interleaving: at a moment when no child is
    between `pivot_root` and `umount2`, no launch has failed exactly when every
    `pivot_root` found the directory and nobody removed it while an old root
    was mounted on it. -/
theorem launches_spared_iff (writable : Bool) (entry : Entry) (actions : List Action) (s : State)
    (h : Lts.run (step writable) (init entry) actions = some s)
    (hdone : ∀ c, ¬ OnOldRoot (s.stage c)) :
    Spared s ↔ Lts.Along (step writable) (Fair writable) (init entry) actions := by
  constructor
  · intro hspared
    refine Lts.along_of_not_end (fun _ _ _ hs hstep => mounted_moves hs (moves_of_step hstep))
      (fun _ _ _ hs hstep hf => lost_of_unfair hs (moves_of_step hstep) hf)
      (fun _ _ _ _ ⟨x, hx⟩ hstep => ⟨x, lost_moves (moves_of_step hstep) hx⟩)
      (mounted_init entry) h ?_
    rintro ⟨x, hx⟩
    exact hx ⟨hspared x, fun hon => absurd hon (hdone x)⟩
  · intro hfair
    have hend := Lts.end_of_along (P := fun u => Mounted u ∧ ∀ x, Safe u x)
      (fun u b v hu hb hstep => ⟨mounted_moves hu.1 (moves_of_step hstep),
        fun x => safe_moves hu.1 hb (moves_of_step hstep) (hu.2 x)⟩)
      ⟨mounted_init entry, safe_init entry⟩ hfair h
    exact fun c => (hend.2 c).1

/-- Two children take turns at every call. The first to have unmounted its old
    root removes the directory, and the other one fails. -/
theorem launches_spared_two : ∃ s : State, s.stage 0 = .running ∧ s.stage 1 = .failed .umount2 ∧
    (Spared s ↔ Lts.Along (step true) (Fair true) (init .absent)
      [.enter 0, .enter 1, .mkdir 0, .mkdir 1, .pivotRoot 0, .pivotRoot 1, .chdir 0, .chdir 1,
        .umount2 0, .rmdir 0, .umount2 1]) := by
  refine ⟨_, rfl, rfl, launches_spared_iff true .absent _ _ rfl fun c => ?_⟩
  match c with
  | 0 | 1 => decide
  -- nobody else was launched
  | c + 2 => exact show ¬ OnOldRoot .outside by decide

/-! ## Launches apart -/

/-- The child is between `mkdir` and `rmdir`. -/
def InBetween (v : Stage) : Prop := v = .made ∨ OnOldRoot v ∨ v = .detached

/-- A child makes the directory while no other is between `mkdir` and `rmdir`. -/
def Alone (s : State) (a : Action) : Prop :=
  ∀ c, a = .mkdir c → ∀ x, ¬ InBetween (s.stage x)

/-- A directory that nobody can remove. -/
def Kept (writable : Bool) (entry : Entry) : Prop :=
  ∃ i e, entry = .dir i e ∧ (e = false ∨ writable = false)

/-- No program in the sandbox touches the name. -/
def LeavesAlone (a : Action) : Prop := ∀ c op, a ≠ .job c op

theorem removes_of_kept (h : Kept writable s.entry) (c : Nat) : removes writable s c = none := by
  rcases h with ⟨i, e, he, hkept⟩
  unfold removes
  rw [he]
  rcases hkept with rfl | rfl
  · rfl
  · cases e with
    | true => simp only [Bool.false_eq_true, false_and, if_false]
    | false => rfl

theorem kept_moves (hs : Kept writable s.entry) (ha : LeavesAlone a)
    (h : Moves writable s a t) : Kept writable t.entry ∧ Fair writable s a := by
  have hdir : s.entry.inode? ≠ none ∧ s.entry ≠ .absent := by
    rcases hs with ⟨i, e, he, _⟩
    simp [he, Entry.inode?]
  have hremoval : removal writable s a = none := by
    cases a with
    | rmdir c => exact removes_of_kept hs c
    | job c op => exact absurd rfl (ha c op)
    | _ => rfl
  refine ⟨?_, fun _ _ => hdir.1, fun hr => absurd hremoval hr⟩
  cases h with
  | makes c hc =>
      have hfound : makeDir writable s = s := if_neg fun hmake => hdir.2 hmake.2
      exact (congrArg (Kept writable ·.entry) hfound).mpr hs
  | removes c hc =>
      have hstays : removeDir writable s c = s := by
        rw [removeDir, removes_of_kept hs c]
      exact (congrArg (Kept writable ·.entry) hstays).mpr hs
  | acts c op hc => exact absurd rfl (ha c op)
  | _ => exact hs

/-- One child at a time has use for the directory, and it is there for it. -/
structure Apart (s : State) : Prop where
  noFile : s.entry ≠ .file
  made : ∀ c, s.stage c = .made → s.entry.inode? ≠ none
  one : ∀ c x, InBetween (s.stage c) → InBetween (s.stage x) → x = c

theorem apart_init {entry : Entry} (h : entry ≠ .file) : Apart (init entry) where
  noFile := h
  made _ hc := Stage.noConfusion hc
  one _ _ hc := by simp [init, InBetween, OnOldRoot] at hc

/-- A child goes on, or fails, and the name stays as it is. -/
theorem Apart.goes (hs : Apart s) {c : Nat} {v : Stage} (hentry : t.entry = s.entry)
    (hstage : t.stage = Function.update s.stage c v)
    (hv : InBetween v → InBetween (s.stage c)) (hmade : v ≠ .made) : Apart t := by
  have hback : ∀ x, InBetween (t.stage x) → InBetween (s.stage x) := by
    intro x hx
    rw [hstage, Function.update_apply] at hx
    split at hx
    · rename_i hxc
      exact hxc ▸ hv hx
    · exact hx
  refine ⟨hentry ▸ hs.noFile, fun x hx => ?_, fun x y hx hy => hs.one x y (hback x hx) (hback y hy)⟩
  rw [hstage, Function.update_apply] at hx
  split at hx
  · exact absurd hx hmade
  · exact hentry ▸ hs.made x hx

/-- The directory is made while nobody is in between. -/
theorem Apart.makes (hs : Apart s) (hw : writable = true) (c : Nat)
    (halone : ∀ x, ¬ InBetween (s.stage x)) :
    Apart (setStage (makeDir writable s) c .made) := by
  have hdir : (makeDir writable s).entry ≠ .file ∧ (makeDir writable s).entry.inode? ≠ none := by
    cases he : s.entry with
    | absent => simp [makeDir, hw, he, Entry.inode?]
    | file => exact absurd he hs.noFile
    | dir i e => simp [makeDir, he, Entry.inode?]
  have honly : ∀ x, InBetween ((setStage (makeDir writable s) c .made).stage x) → x = c := by
    intro x hx
    rw [setStage_stage, makeDir_stage] at hx
    split at hx
    · assumption
    · exact absurd hx (halone x)
  exact ⟨hdir.1, fun _ _ => hdir.2, fun x y hx hy => (honly y hy).trans (honly x hx).symm⟩

/-- The one that is in between removes the directory. -/
theorem Apart.removes (hs : Apart s) {c : Nat} (hc : s.stage c = .detached) :
    Apart (setStage (removeDir writable s c) c .running) := by
  have hnobody : ∀ x, ¬ InBetween ((setStage (removeDir writable s c) c .running).stage x) := by
    intro x hx
    rw [setStage_stage, removeDir_stage] at hx
    split at hx
    · simp [InBetween, OnOldRoot] at hx
    · rename_i hxc
      exact hxc (hs.one c x (hc ▸ .inr (.inr rfl)) hx)
  refine ⟨?_, fun x hx => absurd (hx ▸ .inl rfl) (hnobody x), fun x _ hx => absurd hx (hnobody x)⟩
  have hentry : (removeDir writable s c).entry = s.entry ∨
      (removeDir writable s c).entry = .absent := by
    unfold removeDir
    split
    · exact .inl rfl
    · exact .inr rfl
  rcases hentry with he | he
  · exact fun hfile => hs.noFile (he.symm.trans hfile)
  · exact fun hfile => Entry.noConfusion (he.symm.trans hfile)

theorem apart_moves (hs : Apart s) (hw : writable = true) (ha : LeavesAlone a)
    (halone : Alone s a) (h : Moves writable s a t) : Apart t ∧ Fair writable s a := by
  constructor
  · cases h with
    | enters c hc => exact hs.goes rfl rfl (by simp [InBetween, OnOldRoot]) Stage.noConfusion
    | makes c hc => exact hs.makes hw c (halone c rfl)
    | pivots c i e hc he =>
        exact hs.goes (c := c) rfl rfl (fun _ => hc ▸ .inl rfl) Stage.noConfusion
    | misses c hc he => exact hs.goes rfl rfl (by simp [InBetween, OnOldRoot]) Stage.noConfusion
    | changes c hc =>
        exact hs.goes rfl rfl (fun _ => hc ▸ .inr (.inl (.inl rfl))) Stage.noConfusion
    | unmounts c hc hat =>
        exact hs.goes (c := c) rfl rfl (fun _ => hc ▸ .inr (.inl (.inr rfl))) Stage.noConfusion
    | strands c hc hat => exact hs.goes rfl rfl (by simp [InBetween, OnOldRoot]) Stage.noConfusion
    | removes c hc => exact hs.removes hc
    | acts c op hc => exact absurd rfl (ha c op)
  · refine ⟨fun c hpivot => ?_, fun hr x hx => ?_⟩
    · subst hpivot
      cases h with
      | pivots c i e hc he => exact hs.made c hc
      | misses c hc he => exact hs.made c hc
    · cases h with
      | removes c hc =>
          -- the child that removes the directory is the one in between
          have hxc := hs.one c x (hc ▸ .inr (.inr rfl)) (.inr (.inl hx))
          rw [hxc, hc] at hx
          simp [OnOldRoot] at hx
      | acts c op hc => exact ha c op rfl
      | _ => exact hr rfl

/-- As long as the programs in the sandbox leave the name alone, no launch
    fails, if nobody can remove the directory or if, in a writable rootfs where
    the name is no file's, no two launches overlap between their `mkdir` and
    their `rmdir`. -/
theorem launches_apart (writable : Bool) (entry : Entry) (actions : List Action)
    (hleave : ∀ a ∈ actions, LeavesAlone a)
    (h : Kept writable entry ∨ (writable = true ∧ entry ≠ .file ∧
      Lts.Along (step writable) Alone (init entry) actions)) :
    Lts.Always (step writable) Spared (init entry) actions := by
  have hleaves : ∀ {u : State}, Lts.Along (step writable) (fun _ a => LeavesAlone a) u actions :=
    Lts.along_of_forall fun a ha _ => hleave a ha
  have hspared : ∀ u : State, (∀ x, Safe u x) → Spared u := fun u hu c => (hu c).1
  rcases h with hkept | ⟨hw, hfile, halone⟩
  · have halways := Lts.always_of_along
      (P := fun u => Kept writable u.entry ∧ Mounted u ∧ ∀ x, Safe u x)
      (fun u b v hu hb hstep => by
        rcases kept_moves hu.1 hb (moves_of_step hstep) with ⟨hk, hf⟩
        exact ⟨hk, mounted_moves hu.2.1 (moves_of_step hstep),
          fun x => safe_moves hu.2.1 hf (moves_of_step hstep) (hu.2.2 x)⟩)
      actions ⟨hkept, mounted_init entry, safe_init entry⟩ hleaves
    exact halways.imp fun u hu => hspared u hu.2.2
  · have hboth : Lts.Along (step writable) (fun u a => LeavesAlone a ∧ Alone u a) (init entry)
        actions := hleaves.and halone
    have halways := Lts.always_of_along
      (P := fun u => Apart u ∧ Mounted u ∧ ∀ x, Safe u x)
      (fun u b v hu hb hstep => by
        rcases apart_moves hu.1 hw hb.1 hb.2 (moves_of_step hstep) with ⟨hk, hf⟩
        exact ⟨hk, mounted_moves hu.2.1 (moves_of_step hstep),
          fun x => safe_moves hu.2.1 hf (moves_of_step hstep) (hu.2.2 x)⟩)
      actions ⟨apart_init hfile, mounted_init entry, safe_init entry⟩ hboth
    exact halways.imp fun u hu => hspared u hu.2.2

/-- With a file in the directory, the two children above do not meet. -/
theorem launches_apart_two : Lts.Always (step true) Spared (init (.dir 0 false))
    [.enter 0, .enter 1, .mkdir 0, .mkdir 1, .pivotRoot 0, .pivotRoot 1, .chdir 0, .chdir 1,
      .umount2 0, .rmdir 0, .umount2 1, .rmdir 1] :=
  launches_apart true (.dir 0 false) _ (by simp [LeavesAlone]) (.inl ⟨0, false, rfl, .inl rfl⟩)

end OldRoot

end Isolyx
