import Isolyx.Core.Handshake

/-!
# When a Child Goes On

The sync pipe is meant to say two things to a child: the byte, that its launch
is ready, and end of file, that its parent went away. What it says depends on
who else holds an end of it.

The second it never says. The child was cloned with the write end among its
descriptors and reads without having closed it, so as long as it is blocked
somebody holds the write end, namely the child (`never_endOfFile`). A child
whose parent goes away without writing waits forever, which makes the condition
for this half exact (`kept_of_handshaken`).

The first it says wrongly if someone else writes. A program that was cloned
while another worker was between `pipe` and the end of its launch holds that
launch's write end for good. Its byte is as good as the parent's, and the child
that reads it goes on before the limiter and the watchdog are in place
(`stray_byte_passes`). If no program writes to the pipe of a launch that is not
ready, every byte in a pipe was written after it was (`calm_moves`).

## Main definitions

* `Handshaken`: A child that went on was ready, and an orphan reads end of file.
* `Undisturbed`: No program writes to the pipe of a launch that is not ready.
* `Kept`: The parent does not go away while its child waits for the byte.
* `Wf`: Who holds which write end.

## Theorems

* `wf_moves`: A blocked child holds its own write end.
* `never_endOfFile`: So it never reads end of file.
* `calm_moves`: Undisturbed, a byte in a pipe means that the launch is ready.
* `served_moves`: A child that waits has a parent with the write end.
* `handshaken_of_kept`: Runs that are undisturbed and kept shake hands, and
  those that shake hands are kept.
* `stray_byte_passes`: A disturbance is enough for a child to go on too early.
* `orphan_waits`: A child whose engine ends reads no end of file.
-/

namespace Isolyx

namespace Handshake

variable {n : Nat} {s t : State n} {a : Action n}

/-- A read of the pipe returns end of file. -/
def EndOfFile (s : State n) (pipe : Nat) : Prop := s.bytes pipe = 0 ∧ held s ⟨pipe, true⟩ = false

/-- A child that went on was ready. One that is blocked, and whose parent gave
    up the write end without writing the byte, reads end of file. -/
structure Handshaken (s : State n) : Prop where
  passed : ∀ c, (s.children c).phase = .running → Ready s (s.children c).pipe
  orphaned : ∀ c, (s.children c).phase = .blocked → (s.children c).pipe ∉ s.written →
    ⟨(s.children c).pipe, true⟩ ∉ s.table → EndOfFile s (s.children c).pipe

/-- A child waits at the pipe for a byte that its parent has not written. -/
def Awaited (s : State n) (pipe : Nat) : Prop :=
  pipe ∉ s.written ∧ ∃ c, (s.children c).phase = .blocked ∧ (s.children c).pipe = pipe

/-- No program writes to the pipe of a launch that is not ready. -/
def Undisturbed (s : State n) : Action n → Prop
  | .programWrites _ pipe => Ready s pipe
  | _ => True

/-- The engine does not end, of itself or of its write, while any child waits
    for its byte, and no worker closes a write end at which one does. -/
def Kept (s : State n) : Action n → Prop
  | .engineDies => ∀ pipe, ¬ Awaited s pipe
  | .writeSync w _ => ∀ pipe child, s.workers w = .launching pipe child .gidMapped →
      held s ⟨pipe, false⟩ = false → ∀ p, ¬ Awaited s p
  | .closeWrite w => ∀ pipe child, s.workers w = .launching pipe child .wrote → ¬ Awaited s pipe
  | _ => True

theorem mem_close {fd x : Fd} {table : List Fd} : x ∈ close fd table ↔ x ∈ table ∧ x ≠ fd := by
  simp only [close, List.mem_filter, decide_eq_true_eq]

theorem workers_setWorker (s : State n) (w x : Fin n) (v : Worker) :
    (setWorker s w v).workers x = if x = w then v else s.workers x := by
  simp only [setWorker, Function.update_apply]

theorem children_setChild (s : State n) (c d : Nat) (v : Child) :
    (setChild s c v).children d = if d = c then v else s.children d := by
  simp only [setChild, Function.update_apply]

theorem held_of_child {fd : Fd} {c : Nat} (hc : c < s.nextChild)
    (h : fd ∈ (s.children c).table) : held s fd = true := by
  rw [held, Bool.or_eq_true, List.any_eq_true]
  exact Or.inr ⟨c, List.mem_range.mpr hc, List.contains_iff_mem.mpr h⟩

theorem Stage.rank_next {st st' : Stage} (h : st.next = some st') : st'.rank = st.rank + 1 := by
  cases st <;> simp only [Stage.next, reduceCtorEq, Option.some.injEq] at h <;> subst h <;> rfl

theorem Stage.rank_inj {st st' : Stage} (h : st.rank = st'.rank) : st = st' := by
  cases st <;> cases st' <;> first | rfl | exact absurd h (by decide)

theorem Ready.mono {pipe : Nat} (h : Ready s pipe)
    (hsub : ∀ x ∈ s.attempts, x ∈ t.attempts) : Ready t pipe :=
  fun stage hstage => hsub _ (h stage hstage)

/-! ## Who holds which end -/

/-- Who holds which write end, and what a launch has behind it. -/
structure Wf (s : State n) : Prop where
  /-- A blocked child holds the write end of the pipe it reads from. -/
  ends : ∀ c, (s.children c).phase = .blocked →
    ⟨(s.children c).pipe, true⟩ ∈ (s.children c).table
  fresh : ∀ c, s.nextChild ≤ c → (s.children c).phase = .absent
  /-- Until a worker closes it, the engine holds the write end of its launch. -/
  own : s.alive = true → ∀ w pipe, (s.workers w).pipe? = some pipe →
    ⟨pipe, true⟩ ∈ s.table ∧ pipe < s.nextPipe
  apart : ∀ w w' pipe, (s.workers w).pipe? = some pipe → (s.workers w').pipe? = some pipe →
    w = w'
  stages : ∀ w pipe child stage, s.workers w = .launching pipe child stage →
    ∀ st, 0 < st.rank → st.rank ≤ stage.rank → st ≠ .wrote → (pipe, st) ∈ s.attempts

/-- A worker moves on with the pipe it had, to a stage it has behind it. -/
theorem Wf.advance (hs : Wf s) {w : Fin n} {u v : Worker} (hw : s.workers w = u)
    (hpipe : v.pipe? = u.pipe?)
    (hstages : ∀ pipe child stage, v = .launching pipe child stage →
      ∀ st, 0 < st.rank → st.rank ≤ stage.rank → st ≠ .wrote → (pipe, st) ∈ s.attempts) :
    Wf (setWorker s w v) where
  ends := hs.ends
  fresh := hs.fresh
  own ha x pipe hx := by
    rw [workers_setWorker] at hx
    split at hx
    · exact hs.own ha w pipe (by rw [hw, ← hpipe]; exact hx)
    · exact hs.own ha x pipe hx
  apart x y pipe hx hy := by
    -- the pipes are the ones they were
    have hsame : ∀ z, ((setWorker s w v).workers z).pipe? = (s.workers z).pipe? := by
      intro z
      rw [workers_setWorker]
      split
      · rename_i hz
        rw [hz, hw, hpipe]
      · rfl
    exact hs.apart x y pipe (hsame x ▸ hx) (hsame y ▸ hy)
  stages x pipe child stage hx := by
    rw [workers_setWorker] at hx
    split at hx
    · exact hstages pipe child stage hx
    · exact hs.stages x pipe child stage hx

/-- A worker gives up its launch, whether or not the write end is closed. -/
theorem Wf.giveUp (hs : Wf s) {w : Fin n} {pipe : Nat} (hw : (s.workers w).pipe? = some pipe)
    {table : List Fd} (htable : ∀ x ∈ s.table, x ≠ ⟨pipe, true⟩ → x ∈ table) :
    Wf { setWorker s w .idle with table := table } where
  ends := hs.ends
  fresh := hs.fresh
  own ha x p hx := by
    have hx : ((setWorker s w .idle).workers x).pipe? = some p := hx
    rw [workers_setWorker] at hx
    split at hx
    · exact absurd hx (by simp [Worker.pipe?])
    · rename_i hxw
      rcases hs.own ha x p hx with ⟨hmem, hlt⟩
      refine ⟨htable _ hmem fun heq => hxw ?_, hlt⟩
      have hp : p = pipe := (Fd.mk.inj heq).1
      exact hs.apart x w pipe (hp ▸ hx) hw
  apart x y p hx hy := by
    have hx : ((setWorker s w .idle).workers x).pipe? = some p := hx
    have hy : ((setWorker s w .idle).workers y).pipe? = some p := hy
    rw [workers_setWorker] at hx hy
    split at hx
    · exact absurd hx (by simp [Worker.pipe?])
    · split at hy
      · exact absurd hy (by simp [Worker.pipe?])
      · exact hs.apart x y p hx hy
  stages x p child stage hx := by
    have hx : (setWorker s w .idle).workers x = .launching p child stage := hx
    rw [workers_setWorker] at hx
    split at hx
    · exact absurd hx (by simp)
    · exact hs.stages x p child stage hx

/-- A child changes, and is not blocked afterwards. -/
theorem Wf.setChild (hs : Wf s) {c : Nat} {v : Child} (hc : (s.children c).phase ≠ .absent)
    (hv : v.phase ≠ .blocked) : Wf (setChild s c v) where
  ends d hd := by
    rw [children_setChild] at hd ⊢
    split at hd
    · exact absurd hd hv
    · rename_i hdc
      rw [if_neg hdc]
      exact hs.ends d hd
  fresh d hd := by
    rw [children_setChild]
    split
    · rename_i hdc
      exact absurd (hs.fresh c (hdc ▸ hd)) hc
    · exact hs.fresh d hd
  own := hs.own
  apart := hs.apart
  stages := hs.stages

theorem wf_moves (hs : Wf s) (h : Moves s a t) : Wf t := by
  cases h with
  | pipes w ha hw =>
      refine ⟨hs.ends, hs.fresh, fun _ x pipe hx => ?_, fun x y pipe hx hy => ?_,
        fun x pipe child stage hx => ?_⟩
      · have hx : ((setWorker s w (.piped s.nextPipe)).workers x).pipe? = some pipe := hx
        rw [workers_setWorker] at hx
        split at hx
        · rw [← Option.some.inj hx]
          exact ⟨List.mem_cons_of_mem _ List.mem_cons_self, Nat.lt_succ_self _⟩
        · rcases hs.own ha x pipe hx with ⟨hmem, hlt⟩
          exact ⟨List.mem_cons_of_mem _ (List.mem_cons_of_mem _ hmem), Nat.lt_succ_of_lt hlt⟩
      · have hx : ((setWorker s w (.piped s.nextPipe)).workers x).pipe? = some pipe := hx
        have hy : ((setWorker s w (.piped s.nextPipe)).workers y).pipe? = some pipe := hy
        -- the new pipe is nobody else's
        have hnew : ∀ z, (s.workers z).pipe? ≠ some s.nextPipe := fun z hz =>
          Nat.lt_irrefl _ (hs.own ha z s.nextPipe hz).2
        rw [workers_setWorker] at hx hy
        split at hx
        · rename_i hxw
          split at hy
          · rename_i hyw
            rw [hxw, hyw]
          · exact absurd (Option.some.inj hx ▸ hy) (hnew y)
        · split at hy
          · exact absurd (Option.some.inj hy ▸ hx) (hnew x)
          · exact hs.apart x y pipe hx hy
      · have hx : (setWorker s w (.piped s.nextPipe)).workers x = .launching pipe child stage := hx
        rw [workers_setWorker] at hx
        split at hx
        · exact absurd hx (by simp)
        · exact hs.stages x pipe child stage hx
  | clones w pipe ha hw =>
      have hset : Wf (setWorker s w (.launching pipe s.nextChild .cloned)) := by
        refine hs.advance hw rfl fun p c st hv stage hpos hle => ?_
        rw [← (Worker.launching.inj hv).2.2] at hle
        exact absurd (Nat.lt_of_lt_of_le hpos hle) (Nat.lt_irrefl 0)
      refine ⟨fun c hc => ?_, fun c hc => ?_, hset.own, hset.apart, hset.stages⟩
      · have hc : ((setChild s s.nextChild ⟨.blocked, pipe, s.table⟩).children c).phase
            = .blocked := hc
        show ⟨((setChild s s.nextChild ⟨.blocked, pipe, s.table⟩).children c).pipe, true⟩
          ∈ ((setChild s s.nextChild ⟨.blocked, pipe, s.table⟩).children c).table
        rw [children_setChild] at hc ⊢
        split
        -- the copy of the engine's table has the end that the launch owns
        · exact (hs.own ha w pipe (by rw [hw]; rfl)).1
        · rename_i hcn
          rw [if_neg hcn] at hc
          exact hs.ends c hc
      · have hlt : s.nextChild < c := hc
        show ((setChild s s.nextChild ⟨.blocked, pipe, s.table⟩).children c).phase = .absent
        rw [children_setChild, if_neg (by omega)]
        exact hs.fresh c (by omega)
  | cloneFails w pipe ha hw =>
      exact hs.giveUp (by rw [hw]; rfl) fun _ hx _ => hx
  | proceeds w pipe child stage stage' ha hw hn =>
      have hrank := Stage.rank_next hn
      -- what the call itself does: at most it closes a read end
      have hcall : Wf { s with
          table := if stage' = .readClosed then close ⟨pipe, false⟩ s.table else s.table
          attempts := (pipe, stage') :: s.attempts } := by
        refine ⟨hs.ends, hs.fresh, fun ha x p hx => ?_, hs.apart,
          fun x p c st hx stage hpos hle hne =>
            List.mem_cons_of_mem _ (hs.stages x p c st hx stage hpos hle hne)⟩
        rcases hs.own ha x p hx with ⟨hmem, hlt⟩
        refine ⟨?_, hlt⟩
        show _ ∈ (if _ then _ else _)
        split
        · exact mem_close.mpr ⟨hmem, by simp⟩
        · exact hmem
      have hadv := hcall.advance (v := .launching pipe child stage') hw rfl
        fun p c st hv stage'' hpos hle hne => by
          rcases Worker.launching.inj hv with ⟨rfl, rfl, rfl⟩
          by_cases heq : stage'' = stage'
          · rw [heq]
            exact List.mem_cons_self
          · have hne' : stage''.rank ≠ stage'.rank := fun h => heq (Stage.rank_inj h)
            exact List.mem_cons_of_mem _
              (hs.stages w pipe child stage hw stage'' hpos (by omega) hne)
      exact ⟨hadv.ends, hadv.fresh, hadv.own, hadv.apart, hadv.stages⟩
  | writesNobody w succeeds pipe child ha hw hh =>
      exact ⟨hs.ends, hs.fresh, fun h => absurd h (by simp [dies]), hs.apart, hs.stages⟩
  | writes w pipe child ha hw hh =>
      have hset : Wf (setWorker s w (.launching pipe child .wrote)) := by
        refine hs.advance hw rfl fun p c st hv stage hpos hle hne => ?_
        rcases Worker.launching.inj hv with ⟨rfl, rfl, rfl⟩
        refine hs.stages w pipe child .gidMapped hw stage hpos ?_ hne
        cases stage <;> first | exact absurd rfl hne | decide
      exact ⟨hset.ends, hset.fresh, hset.own, hset.apart, hset.stages⟩
  | writeFails w pipe child ha hw hh =>
      refine hs.advance hw rfl fun p c st hv stage hpos hle hne => ?_
      rcases Worker.launching.inj hv with ⟨rfl, rfl, rfl⟩
      refine hs.stages w pipe child .gidMapped hw stage hpos ?_ hne
      cases stage <;> first | exact absurd rfl hne | decide
  | closes w pipe child ha hw =>
      exact hs.giveUp (by rw [hw]; rfl) fun _ hx hne => mem_close.mpr ⟨hx, hne⟩
  | dies ha => exact ⟨hs.ends, hs.fresh, fun h => absurd h (by simp [dies]), hs.apart, hs.stages⟩
  | passes c hc hb =>
      have hset := hs.setChild (c := c) (v := { s.children c with
        phase := .running, table := close ⟨(s.children c).pipe, false⟩ (s.children c).table })
        (by simp [hc]) (by simp)
      exact ⟨hset.ends, hset.fresh, hset.own, hset.apart, hset.stages⟩
  | ends c hc hb hh => exact hs.setChild (by simp [hc]) (by simp [gone])
  | programWrites c pipe hc ht => exact ⟨hs.ends, hs.fresh, hs.own, hs.apart, hs.stages⟩
  | programReads c pipe hc hb => exact ⟨hs.ends, hs.fresh, hs.own, hs.apart, hs.stages⟩
  | programCloses c fd hc => exact hs.setChild (by simp [hc]) (by simp [hc])
  | childDies c hc =>
      exact hs.setChild (by rcases hc with hc | hc <;> simp [hc]) (by simp [gone])

theorem wf_init : Wf (init n) where
  ends c hc := absurd hc (by simp [init])
  fresh c _ := rfl
  own _ w pipe hw := absurd hw (by simp [init, Worker.pipe?])
  apart w w' pipe hw := absurd hw (by simp [init, Worker.pipe?])
  stages w pipe child stage hw := absurd hw (by simp [init])

/-- A child that exists holds what is in its table. -/
theorem Wf.held (hs : Wf s) {c : Nat} (hc : (s.children c).phase = .blocked) :
    Handshake.held s ⟨(s.children c).pipe, true⟩ = true := by
  refine held_of_child ?_ (hs.ends c hc)
  by_contra hge
  rw [hs.fresh c (Nat.le_of_not_lt hge)] at hc
  exact absurd hc (by simp)

/-- As long as a child is blocked, it does not read end of file. -/
theorem never_endOfFile (hs : Wf s) {c : Nat} (hc : (s.children c).phase = .blocked) :
    ¬ EndOfFile s (s.children c).pipe := fun h =>
  absurd ((hs.held hc).symm.trans h.2) (by simp)

/-! ## The byte -/

/-- A byte in a pipe, and a child that went on, mean that the launch is ready. -/
structure Calm (s : State n) : Prop where
  bytes : ∀ pipe, 0 < s.bytes pipe → Ready s pipe
  passed : ∀ c, (s.children c).phase = .running → Ready s (s.children c).pipe

/-- No byte comes, nobody goes on, and what was attempted was. -/
theorem Calm.keep (hs : Calm s) (hattempts : ∀ x ∈ s.attempts, x ∈ t.attempts)
    (hbytes : ∀ pipe, 0 < t.bytes pipe → 0 < s.bytes pipe)
    (hchildren : ∀ c, (t.children c).phase = .running →
      (s.children c).phase = .running ∧ (t.children c).pipe = (s.children c).pipe) : Calm t where
  bytes pipe h := (hs.bytes pipe (hbytes pipe h)).mono hattempts
  passed c h := by
    rw [(hchildren c h).2]
    exact (hs.passed c (hchildren c h).1).mono hattempts

/-- A byte is written to the pipe of a launch that is ready. -/
theorem Calm.write (hs : Calm s) {pipe : Nat} (hr : Ready s pipe) (count : Nat)
    (hattempts : t.attempts = s.attempts) (hbytes : t.bytes = (setBytes s pipe count).bytes)
    (hchildren : t.children = s.children) : Calm t := by
  have hmono : ∀ x ∈ s.attempts, x ∈ t.attempts := fun x hx => hattempts ▸ hx
  refine ⟨fun p hp => ?_, fun c hc => ?_⟩
  · by_cases hpp : p = pipe
    · exact hpp ▸ hr.mono hmono
    · rw [hbytes, setBytes] at hp
      simp only [Function.update_of_ne hpp] at hp
      exact (hs.bytes p hp).mono hmono
  · rw [hchildren] at hc ⊢
    exact (hs.passed c hc).mono hmono

theorem Calm.setChild (hs : Calm s) {c : Nat} {v : Child}
    (hv : v.phase = .running → Ready s v.pipe) : Calm (setChild s c v) where
  bytes := hs.bytes
  passed d hd := by
    rw [children_setChild] at hd ⊢
    split at hd
    · rename_i hdc
      rw [if_pos hdc]
      exact hv hd
    · rename_i hdc
      rw [if_neg hdc]
      exact hs.passed d hd

/-- The launch about to write its byte is ready. -/
theorem ready_of_gidMapped (hs : Wf s) {w : Fin n} {pipe child : Nat}
    (hw : s.workers w = .launching pipe child .gidMapped) : Ready s pipe := by
  have hbehind : ∀ stage ∈ [Stage.limited, .watched, .uidMapped, .gidMapped],
      0 < stage.rank ∧ stage.rank ≤ Stage.gidMapped.rank ∧ stage ≠ .wrote := by decide
  intro stage hstage
  rcases hbehind stage hstage with ⟨hpos, hle, hne⟩
  exact hs.stages w pipe child .gidMapped hw stage hpos hle hne

theorem calm_moves (hw : Wf s) (hs : Calm s) (h : Moves s a t) (hg : Undisturbed s a) :
    Calm t := by
  have hsame : ∀ {u : State n}, u.attempts = s.attempts → u.bytes = s.bytes →
      u.children = s.children → Calm u := fun h₁ h₂ h₃ =>
    hs.keep (fun _ hx => h₁ ▸ hx) (fun _ hp => h₂ ▸ hp) fun c hc => by
      rw [h₃] at hc ⊢
      exact ⟨hc, rfl⟩
  cases h with
  | pipes w ha hidle => exact hsame rfl rfl rfl
  | clones w pipe ha hpiped =>
      have hset := hs.setChild (c := s.nextChild) (v := ⟨.blocked, pipe, s.table⟩) (by simp)
      exact ⟨hset.bytes, hset.passed⟩
  | cloneFails w pipe ha hpiped => exact hsame rfl rfl rfl
  | proceeds w pipe child stage stage' ha hlaunching hn =>
      exact hs.keep (fun _ hx => List.mem_cons_of_mem _ hx) (fun _ hp => hp)
        fun c hc => ⟨hc, rfl⟩
  | writesNobody w succeeds pipe child ha hlaunching hh => exact hsame rfl rfl rfl
  | writes w pipe child ha hlaunching hh =>
      exact hs.write (ready_of_gidMapped hw hlaunching) _ rfl rfl rfl
  | writeFails w pipe child ha hlaunching hh => exact hsame rfl rfl rfl
  | closes w pipe child ha hlaunching => exact hsame rfl rfl rfl
  | dies ha => exact hsame rfl rfl rfl
  | passes c hc hb =>
      -- the byte was in the pipe, so the launch was ready
      have hset := hs.setChild (c := c) (v := { s.children c with
        phase := .running, table := close ⟨(s.children c).pipe, false⟩ (s.children c).table })
        fun _ => hs.bytes _ hb
      exact hset.write (hs.bytes _ hb) _ rfl rfl rfl
  | ends c hc hb hh => exact hs.setChild (by simp [gone])
  | programWrites c pipe hc ht => exact hs.write hg _ rfl rfl rfl
  | programReads c pipe hc hb => exact hs.write (hs.bytes pipe hb) _ rfl rfl rfl
  | programCloses c fd hc => exact hs.setChild fun h => hs.passed c h
  | childDies c hc => exact hs.setChild (by simp [gone])

/-! ## End of file -/

/-- A child that waits for a byte its parent has not written has a parent that
    holds the write end. -/
def Served (s : State n) : Prop :=
  ∀ c, (s.children c).phase = .blocked → (s.children c).pipe ∉ s.written →
    ⟨(s.children c).pipe, true⟩ ∈ s.table

/-- No child blocks, no byte is forgotten, and no write end is closed. -/
theorem Served.keep (hs : Served s) (hchildren : ∀ c, (t.children c).phase = .blocked →
      (s.children c).phase = .blocked ∧ (t.children c).pipe = (s.children c).pipe)
    (hwritten : ∀ p ∈ s.written, p ∈ t.written)
    (htable : ∀ p, ⟨p, true⟩ ∈ s.table → ⟨p, true⟩ ∈ t.table) : Served t := by
  intro c hc hunwritten
  rcases hchildren c hc with ⟨hold, hpipe⟩
  rw [hpipe] at hunwritten ⊢
  exact htable _ (hs c hold fun h => hunwritten (hwritten _ h))

theorem Served.setChild (hs : Served s) {c : Nat} {v : Child} (hv : v.phase ≠ .blocked) :
    Served (setChild s c v) := by
  refine hs.keep (fun d hd => ?_) (fun _ h => h) fun _ h => h
  rw [children_setChild] at hd ⊢
  split at hd
  · exact absurd hd hv
  · rename_i hdc
    rw [if_neg hdc]
    exact ⟨hd, rfl⟩

/-- When nobody waits, everybody may lose the write end. -/
theorem served_of_idle (hs : ∀ pipe, ¬ Awaited s pipe) : Served (dies s) :=
  fun c hc hunwritten => absurd ⟨hunwritten, c, hc, rfl⟩ (hs _)

theorem served_moves (hw : Wf s) (hs : Served s) (h : Moves s a t) (hg : Kept s a) :
    Served t := by
  cases h with
  | pipes w ha hidle =>
      exact hs.keep (fun c hc => ⟨hc, rfl⟩) (fun _ h => h)
        fun _ h => List.mem_cons_of_mem _ (List.mem_cons_of_mem _ h)
  | clones w pipe ha hpiped =>
      intro c hc hunwritten
      have hc : ((Handshake.setChild s s.nextChild ⟨.blocked, pipe, s.table⟩).children c).phase
          = .blocked := hc
      show ⟨((Handshake.setChild s s.nextChild ⟨.blocked, pipe, s.table⟩).children c).pipe, true⟩
        ∈ s.table
      have hunwritten : ((Handshake.setChild s s.nextChild
          ⟨.blocked, pipe, s.table⟩).children c).pipe ∉ s.written := hunwritten
      rw [children_setChild] at hc hunwritten ⊢
      split
      -- the new child's pipe is that of the launch under way
      · exact (hw.own ha w pipe (by rw [hpiped]; rfl)).1
      · rename_i hcn
        rw [if_neg hcn] at hc hunwritten
        exact hs c hc hunwritten
  | cloneFails w pipe ha hpiped => exact hs.keep (fun c hc => ⟨hc, rfl⟩) (fun _ h => h) fun _ h => h
  | proceeds w pipe child stage stage' ha hlaunching hn =>
      refine hs.keep (fun c hc => ⟨hc, rfl⟩) (fun _ h => h) fun p hp => ?_
      show _ ∈ (if _ then _ else _)
      split
      · exact mem_close.mpr ⟨hp, by simp⟩
      · exact hp
  | writesNobody w succeeds pipe child ha hlaunching hh =>
      exact served_of_idle (hg pipe child hlaunching hh)
  | writes w pipe child ha hlaunching hh =>
      exact hs.keep (fun c hc => ⟨hc, rfl⟩) (fun _ h => List.mem_cons_of_mem _ h) fun _ h => h
  | writeFails w pipe child ha hlaunching hh =>
      exact hs.keep (fun c hc => ⟨hc, rfl⟩) (fun _ h => h) fun _ h => h
  | closes w pipe child ha hlaunching =>
      intro c hc hunwritten
      refine mem_close.mpr ⟨hs c hc hunwritten, fun heq => ?_⟩
      exact hg pipe child hlaunching ⟨(Fd.mk.inj heq).1 ▸ hunwritten, c, hc, (Fd.mk.inj heq).1⟩
  | dies ha => exact served_of_idle hg
  | passes c hc hb =>
      have hset := hs.setChild (c := c) (v := { s.children c with
        phase := .running, table := close ⟨(s.children c).pipe, false⟩ (s.children c).table })
        (by simp)
      exact hset.keep (fun d hd => ⟨hd, rfl⟩) (fun _ h => h) fun _ h => h
  | ends c hc hb hh => exact hs.setChild (by simp [gone])
  | programWrites c pipe hc ht => exact hs.keep (fun d hd => ⟨hd, rfl⟩) (fun _ h => h) fun _ h => h
  | programReads c pipe hc hb => exact hs.keep (fun d hd => ⟨hd, rfl⟩) (fun _ h => h) fun _ h => h
  | programCloses c fd hc => exact hs.setChild (by simp [hc])
  | childDies c hc => exact hs.setChild (by simp [gone])

/-- A step after which no orphan is left waiting was one that keeps. -/
theorem kept_of_handshaken (hs : Wf s) (h : Moves s a t) (ht : Handshaken t) : Kept s a := by
  -- a child that waits in `t` for a byte nobody will write is an orphan that reads no end of file
  have horphan : t = dies s → ∀ pipe, ¬ Awaited s pipe := by
    rintro rfl pipe ⟨hunwritten, c, hc, rfl⟩
    have hend := ht.orphaned c hc hunwritten (by simp [dies])
    exact never_endOfFile (c := c) (wf_moves hs h) hc hend
  cases h with
  | writesNobody w succeeds pipe child ha hlaunching hh => exact fun _ _ _ _ => horphan rfl
  | writes w pipe child ha hlaunching hh =>
      intro p c hp hnobody
      rw [hlaunching] at hp
      rw [← (Worker.launching.inj hp).1, hh] at hnobody
      exact absurd hnobody (by simp)
  | writeFails w pipe child ha hlaunching hh =>
      intro p c hp hnobody
      rw [hlaunching] at hp
      rw [← (Worker.launching.inj hp).1, hh] at hnobody
      exact absurd hnobody (by simp)
  | closes w pipe child ha hlaunching =>
      rintro p child' hp ⟨hunwritten, c, hc, rfl⟩
      rw [hlaunching] at hp
      rcases Worker.launching.inj hp with ⟨rfl, _, _⟩
      have hwf := wf_moves hs (.closes w _ child ha hlaunching)
      exact never_endOfFile (c := c) hwf hc
        (ht.orphaned c hc hunwritten fun hmem => (mem_close.mp hmem).2 rfl)
  | dies ha => exact horphan rfl
  | _ => trivial

/-! ## Runs -/

theorem handshaken_of_calm (hc : Calm s) (hs : Served s) : Handshaken s :=
  ⟨hc.passed, fun c hblocked hunwritten hgone => absurd (hs c hblocked hunwritten) hgone⟩

/-- For any number of workers, every interleaving and every behaviour of the
    programs: the handshake holds throughout a run in which no program writes to
    the pipe of a launch that is not ready and no parent goes away while its
    child waits; and wherever it holds throughout, no parent did. -/
theorem handshaken_of_kept (n : Nat) (actions : List (Action n)) :
    (Lts.Along step (fun s a => Undisturbed s a ∧ Kept s a) (init n) actions →
      Lts.Always step Handshaken (init n) actions) ∧
    (Lts.Always step Handshaken (init n) actions → Lts.Along step Kept (init n) actions) := by
  constructor
  · intro hg
    have halways := Lts.always_of_along (P := fun s : State n => Wf s ∧ Calm s ∧ Served s)
      (fun s a t hs hb hstep => by
        have hm := moves_of_step hstep
        exact ⟨wf_moves hs.1 hm, calm_moves hs.1 hs.2.1 hm hb.1, served_moves hs.1 hs.2.2 hm hb.2⟩)
      actions ⟨wf_init, ⟨fun _ hp => absurd hp (by simp [init]),
        fun _ hc => absurd hc (by simp [init])⟩, fun _ hc => absurd hc (by simp [init])⟩ hg
    exact Lts.Always.imp (fun s hs => handshaken_of_calm hs.2.1 hs.2.2) halways
  · exact Lts.along_of_always (fun _ _ _ hs hstep => wf_moves hs (moves_of_step hstep))
      (fun _ _ _ hs hstep ht => kept_of_handshaken hs (moves_of_step hstep) ht) actions wf_init

theorem step_readSync {d : Nat} (hd : (s.children d).phase = .blocked)
    (hb : 0 < s.bytes (s.children d).pipe) :
    step s (.readSync d) = some (setBytes (setChild s d { s.children d with
      phase := .running
      table := close ⟨(s.children d).pipe, false⟩ (s.children d).table })
      (s.children d).pipe (s.bytes (s.children d).pipe - 1)) := by
  rw [step, if_neg fun h => h hd, if_pos hb]

/-- A program with the write end of a launch that is not ready needs one write,
    and that launch's child goes on. -/
theorem stray_byte_passes {c d : Nat} (hc : (s.children c).phase = .running)
    (ht : ⟨(s.children d).pipe, true⟩ ∈ (s.children c).table)
    (hd : (s.children d).phase = .blocked) (hr : ¬ Ready s (s.children d).pipe) :
    ∃ t u, step s (.programWrites c (s.children d).pipe) = some t ∧
      step t (.readSync d) = some u ∧ ¬ Handshaken u := by
  have hwrite : step s (.programWrites c (s.children d).pipe)
      = some (setBytes s (s.children d).pipe (s.bytes (s.children d).pipe + 1)) := by
    rw [step, if_pos ⟨hc, ht⟩]
  have hbyte : 0 < (setBytes s (s.children d).pipe (s.bytes (s.children d).pipe + 1)).bytes
      (s.children d).pipe := by
    simp only [setBytes, Function.update_self, Nat.zero_lt_succ]
  have hblocked : ((setBytes s (s.children d).pipe (s.bytes (s.children d).pipe + 1)).children
      d).phase = .blocked := hd
  have hread : ∃ u, step (setBytes s (s.children d).pipe (s.bytes (s.children d).pipe + 1))
      (.readSync d) = some u ∧ (u.children d).phase = .running ∧
      (u.children d).pipe = (s.children d).pipe ∧ u.attempts = s.attempts := by
    refine ⟨_, step_readSync hblocked hbyte, ?_⟩
    simp only [setBytes, setChild, Function.update_self, and_self]
  rcases hread with ⟨u, hu, hphase, hpipe, hattempts⟩
  refine ⟨_, u, hwrite, hu, fun hshaken => hr ?_⟩
  -- It runs, and nothing was attempted since.
  have hready := hshaken.passed d hphase
  rw [hpipe] at hready
  exact hready.mono fun x hx => hattempts ▸ hx

/-- The engine ends while a child waits: the child reads no end of file. -/
theorem orphan_waits : ¬ ∀ (n : Nat) (actions : List (Action n)) (s : State n),
    Lts.run step (init n) actions = some s → Handshaken s := by
  intro h
  have hs := h 1 [.pipe 0, .clone 0 true, .engineDies] _ rfl
  have hend := hs.orphaned 0 rfl (by simp [init, dies, setChild, setWorker])
    (by simp [dies])
  exact absurd hend.2 (by decide)

end Handshake

end Isolyx
