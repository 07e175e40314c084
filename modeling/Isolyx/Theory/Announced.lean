import Isolyx.Core.Numbering
import Mathlib.Data.Nat.ModEq

/-!
# Announced Numbers

Taking a number is one step, so no two jobs get the same one before the counter
wraps around. What the shell announces is another matter: it does not keep the
number it took, and recovers it from the counter, which the daemon may have
moved on.

After `n` numbers have been taken the counter is at `n + 1`, and a job at place
`p` has number `p + 1`, both up to the width of the counter (`Counted`). From
this the two statements about numbers turn into statements about places: the
shell announces the right number if no other one was taken since its own, and
two jobs share a number if their places are a whole turn of the counter apart
(`sound_iff`).

## Main definitions

* `Sound`: The accepted jobs have different numbers, and announced are theirs.
* `Counted`: The numbers follow from the places.
* `Undisturbed`: What keeps the numbers sound.
* `Placed`: Every place is that of one job.
* `Alone`: What keeps them sound before the counter wraps.

## Theorems

* `counted_step`: Every step preserves `Counted`.
* `id_eq_iff`: Two jobs have one number if their places are a turn apart.
* `printed_eq_iff`: The shell is right if nobody else took a number.
* `sound_iff`: When the numbers are sound throughout.
* `sound_of_few`: Before the counter wraps, only the announcement can be wrong.
-/

namespace Isolyx

namespace Numbering

open Lts

/-- All accepted jobs have distinct numbers, and what the shell has printed is
    the number of the job that it had put into the queue. -/
def Sound (s : State) : Prop :=
  (s.accepted.map fun n => n.job.id).Nodup ∧ ∀ a ∈ s.announced, a.printed = a.job.job.id

instance : DecidablePred Sound :=
  fun s => inferInstanceAs (Decidable ((s.accepted.map fun n => n.job.id).Nodup ∧
    ∀ a ∈ s.announced, a.printed = a.job.job.id))

/-- How many numbers there are. -/
def turn : Nat := 2 ^ 64

/-- A job whose number follows from its place. -/
def Numbered.Counted (n : Numbered) : Prop := n.job.id = (n.place + 1) % turn

def Shell.Counted : Shell → Prop
  | .made n | .enqueued n => n.Counted
  | .prompt | .parsed _ | .gone => True

def Daemon.Counted : Daemon → Prop
  | .made n => n.Counted
  | .reading | .parsed _ => True

/-- The counter is one ahead of the numbers taken, and every job has the number
    that its place says. -/
structure Counted (s : State) : Prop where
  counter : s.nextJobId = UInt64.ofNat (s.drawn + 1)
  shell : s.shell.Counted
  daemon : s.daemon.Counted
  accepted : ∀ n ∈ s.accepted, n.Counted

theorem counted_init : Counted init := ⟨rfl, trivial, trivial, fun _ h => nomatch h⟩

theorem afterLine_counted (line : Bytes) : (afterLine line).Counted := by
  rw [afterLine]
  split_ifs <;> trivial

theorem afterJobLine_counted (line : Bytes) : (afterJobLine line).Counted := by
  rw [afterJobLine]
  split
  · trivial
  · split <;> trivial

theorem makeJob_counted {s : State} (h : s.nextJobId = UInt64.ofNat (s.drawn + 1))
    (cmd : Command) : (makeJob s cmd).Counted := by
  rw [Numbered.Counted, makeJob, h]
  exact UInt64.toNat_ofNat'

theorem draw_counter {s : State} (h : s.nextJobId = UInt64.ofNat (s.drawn + 1)) :
    (draw s).nextJobId = UInt64.ofNat ((draw s).drawn + 1) := by
  rw [draw, h]
  exact (UInt64.ofNat_add (s.drawn + 1) 1).symm

theorem Counted.accept {s : State} (h : Counted s) {n : Numbered} (hn : n.Counted) :
    ∀ m ∈ s.accepted ++ [n], m.Counted := by
  intro m hm
  rcases List.mem_append.mp hm with hm | hm
  · exact h.accepted m hm
  · exact List.mem_singleton.mp hm ▸ hn

theorem counted_step {s t : State} {a : Action} (h : Counted s) (hstep : step s a = some t) :
    Counted t := by
  rcases moves_of_step hstep with
    ⟨line, hp⟩ | hp | ⟨cmd, hp⟩ | ⟨n, hp⟩ | ⟨n, hp, _⟩ | ⟨n, hp, _⟩ | ⟨line, hp⟩ | ⟨cmd, hp⟩ |
      ⟨n, hp⟩
  · exact ⟨h.counter, afterLine_counted line, h.daemon, h.accepted⟩
  · exact ⟨h.counter, trivial, h.daemon, h.accepted⟩
  · exact ⟨draw_counter h.counter, makeJob_counted h.counter cmd, h.daemon, h.accepted⟩
  · have hn := h.shell
    rw [hp] at hn
    exact ⟨h.counter, hn, h.daemon, h.accept hn⟩
  · exact ⟨h.counter, trivial, h.daemon, h.accepted⟩
  · exact ⟨h.counter, trivial, h.daemon, h.accepted⟩
  · exact ⟨h.counter, h.shell, afterJobLine_counted line, h.accepted⟩
  · exact ⟨draw_counter h.counter, h.shell, makeJob_counted h.counter cmd, h.accepted⟩
  · have hn := h.daemon
    rw [hp] at hn
    exact ⟨h.counter, h.shell, trivial, h.accept hn⟩

/-! ## Numbers and places -/

/-- Two jobs have one number if their places are whole turns apart. -/
theorem id_eq_iff {m n : Numbered} (hm : m.Counted) (hn : n.Counted) :
    m.job.id = n.job.id ↔ m.place ≡ n.place [MOD turn] := by
  rw [hm, hn]
  exact Nat.ModEq.add_iff_right (Nat.ModEq.refl 1)

/-- What the shell prints is the number of its job if nobody else took a number
    since, up to whole turns. -/
theorem printed_eq_iff {s : State} (h : Counted s) {n : Numbered} (hn : n.Counted) :
    (s.nextJobId - 1).toNat = n.job.id ↔ s.drawn ≡ n.place + 1 [MOD turn] := by
  have hread : (s.nextJobId - 1).toNat = s.drawn % turn := by
    rw [h.counter, UInt64.ofNat_add]
    exact (congrArg UInt64.toNat (UInt64.add_sub_cancel (UInt64.ofNat s.drawn) 1)).trans
      UInt64.toNat_ofNat'
  rw [hread, hn]
  rfl

/-- The job is put into the queue while no job of it is whole turns away. -/
def Fits (s : State) (n : Numbered) : Prop :=
  ∀ m ∈ s.accepted, ¬ m.place ≡ n.place [MOD turn]

/-- What keeps the numbers sound: no accepted job is whole turns away from the
    one that is put into the queue, and between the shell's number and what it
    prints no other one is taken, up to whole turns. -/
def Undisturbed (s : State) : Action → Prop
  | .shellEnqueues => ∀ n, s.shell = .made n → Fits s n
  | .daemonEnqueues => ∀ n, s.daemon = .made n → Fits s n
  | .shellPrints => ∀ n, s.shell = .enqueued n → s.drawn ≡ n.place + 1 [MOD turn]
  | _ => True

theorem accept_nodup_iff {s : State} (h : Counted s)
    (hs : (s.accepted.map fun n => n.job.id).Nodup) {n : Numbered} (hn : n.Counted) :
    ((s.accepted ++ [n]).map fun n => n.job.id).Nodup ↔ Fits s n := by
  rw [List.map_append, List.nodup_append]
  constructor
  · rintro ⟨-, -, hne⟩ m hm hturn
    exact hne m.job.id (List.mem_map_of_mem hm) n.job.id List.mem_cons_self
      ((id_eq_iff (h.accepted m hm) hn).mpr hturn)
  · intro hfits
    refine ⟨hs, List.pairwise_singleton _ _, fun i hi j hj => ?_⟩
    rcases List.mem_map.mp hi with ⟨m, hm, rfl⟩
    rw [List.mem_singleton.mp hj, ne_eq, id_eq_iff (h.accepted m hm) hn]
    exact hfits m hm

theorem announce_iff {s : State} (hs : ∀ a ∈ s.announced, a.printed = a.job.job.id)
    (new : Announcement) :
    (∀ a ∈ s.announced ++ [new], a.printed = a.job.job.id) ↔ new.printed = new.job.job.id := by
  simp only [List.mem_append, List.mem_singleton, or_imp, forall_and, forall_eq]
  exact and_iff_right hs

/-- A step keeps the numbers sound exactly if it is undisturbed. -/
theorem sound_step_iff {s t : State} {a : Action} (h : Counted s) (hs : Sound s)
    (hstep : step s a = some t) : Sound t ↔ Undisturbed s a := by
  rcases moves_of_step hstep with
    ⟨line, hp⟩ | hp | ⟨cmd, hp⟩ | ⟨n, hp⟩ | ⟨n, hp, _⟩ | ⟨n, hp, _⟩ | ⟨line, hp⟩ | ⟨cmd, hp⟩ |
      ⟨n, hp⟩
  · exact iff_of_true hs trivial
  · exact iff_of_true hs trivial
  · exact iff_of_true hs trivial
  · have hn := h.shell
    rw [hp] at hn
    rw [Undisturbed, Sound, and_iff_left hs.2, accept_nodup_iff h hs.1 hn, hp]
    simp only [Shell.made.injEq, forall_eq']
  · exact iff_of_true hs trivial
  · have hn := h.shell
    rw [hp] at hn
    rw [Undisturbed, Sound, and_iff_right hs.1, announce_iff hs.2, printed_eq_iff h hn, hp]
    simp only [Shell.enqueued.injEq, forall_eq']
  · exact iff_of_true hs trivial
  · exact iff_of_true hs trivial
  · have hn := h.daemon
    rw [hp] at hn
    rw [Undisturbed, Sound, and_iff_left hs.2, accept_nodup_iff h hs.1 hn, hp]
    simp only [Daemon.made.injEq, forall_eq']

theorem sound_init : Sound init := ⟨List.nodup_nil, fun _ h => nomatch h⟩

/-- All accepted jobs have distinct numbers and all announced ones are theirs,
    throughout, exactly if every step is undisturbed. -/
theorem sound_iff (as : List Action) :
    Always step Sound init as ↔ Along step Undisturbed init as :=
  always_iff_along (fun _ _ _ h _ => counted_step h) (fun _ _ _ => sound_step_iff) as counted_init
    sound_init

/-- The shell takes number 1 for `a &`, the daemon number 2, and then the shell
    announces its job as number 2. -/
theorem announced_wrong : ∃ as t, run step init as = some t ∧
    t.announced.map (fun a => (a.printed, a.job.job.id)) = [(2, 1)] ∧
      ¬ Always step Sound init as := by
  let as : List Action :=
    [.shellLine (ascii "a &"), .shellMakes, .shellEnqueues,
      .daemonLine (ascii "\x7b\"executable\":\"b\"\x7d"), .daemonMakes, .shellPrints]
  have hrun : (run step init as).map
      (fun t => t.announced.map fun a => (a.printed, a.job.job.id)) = some [(2, 1)] := by
    decide +kernel
  rcases Option.map_eq_some_iff.mp hrun with ⟨t, ht, hshown⟩
  refine ⟨as, t, ht, hshown, fun h => ?_⟩
  have hmem : ((2, 1) : Nat × Nat) ∈ t.announced.map fun a => (a.printed, a.job.job.id) :=
    hshown ▸ List.mem_cons_self
  rcases List.mem_map.mp hmem with ⟨a, ha, heq⟩
  rcases Prod.mk.inj heq with ⟨hprinted, hid⟩
  have hright := (always_end h ht).2 a ha
  rw [hprinted, hid] at hright
  exact absurd hright (by decide)

/-! ## Before the counter wraps -/

def Shell.held : Shell → List Nat
  | .made n => [n.place]
  | .prompt | .parsed _ | .enqueued _ | .gone => []

def Daemon.held : Daemon → List Nat
  | .made n => [n.place]
  | .reading | .parsed _ => []

/-- The places of the jobs that are in the queue or in a thread's hands. -/
def places (s : State) : List Nat :=
  s.shell.held ++ s.daemon.held ++ s.accepted.map Numbered.place

/-- Every place is that of one job, and its number was taken. -/
structure Placed (s : State) : Prop where
  nodup : (places s).Nodup
  below : ∀ p ∈ places s, p < s.drawn
  shown : ∀ n, s.shell = .enqueued n → n.place < s.drawn

theorem placed_init : Placed init where
  nodup := List.nodup_nil
  below := fun _ h => nomatch h
  shown := fun _ h => nomatch h

theorem afterLine_held (line : Bytes) : (afterLine line).held = [] := by
  rw [afterLine]
  split_ifs <;> rfl

theorem afterLine_ne (line : Bytes) (n : Numbered) : afterLine line ≠ .enqueued n := by
  rw [afterLine]
  split_ifs <;> exact nofun

theorem afterJobLine_held (line : Bytes) : (afterJobLine line).held = [] := by
  rw [afterJobLine]
  split
  · rfl
  · split <;> rfl

/-- A job that changes hands keeps its place. -/
theorem Placed.of_perm {s t : State} (h : Placed s) (hperm : (places t).Perm (places s))
    (hdrawn : t.drawn = s.drawn) (hshown : ∀ n, t.shell = .enqueued n → n.place < s.drawn) :
    Placed t where
  nodup := hperm.nodup_iff.mpr h.nodup
  below := fun p hp => hdrawn ▸ h.below p (hperm.mem_iff.mp hp)
  shown := fun n hn => hdrawn ▸ hshown n hn

/-- A number that is taken has a place behind all others. -/
theorem Placed.of_draw {s t : State} (h : Placed s) (hperm : (places t).Perm (s.drawn :: places s))
    (hdrawn : t.drawn = s.drawn + 1) (hshown : ∀ n, t.shell = .enqueued n → n.place < s.drawn) :
    Placed t where
  nodup := by
    rw [hperm.nodup_iff, List.nodup_cons]
    exact ⟨fun hmem => Nat.lt_irrefl _ (h.below _ hmem), h.nodup⟩
  below := by
    intro p hp
    rw [hdrawn]
    rcases List.mem_cons.mp (hperm.mem_iff.mp hp) with rfl | hp
    · exact Nat.lt_succ_self _
    · exact Nat.lt_succ_of_lt (h.below p hp)
  shown := fun n hn => hdrawn ▸ Nat.lt_succ_of_lt (hshown n hn)

theorem placed_step {s t : State} {a : Action} (h : Placed s) (hstep : step s a = some t) :
    Placed t := by
  rcases moves_of_step hstep with
    ⟨line, hp⟩ | hp | ⟨cmd, hp⟩ | ⟨n, hp⟩ | ⟨n, hp, _⟩ | ⟨n, hp, _⟩ | ⟨line, hp⟩ | ⟨cmd, hp⟩ |
      ⟨n, hp⟩
  · refine h.of_perm (.of_eq ?_) rfl fun n hn => absurd hn (afterLine_ne line n)
    simp only [places, hp, afterLine_held]
    rfl
  · refine h.of_perm (.of_eq ?_) rfl fun n hn => Shell.noConfusion hn
    simp only [places, hp, Shell.held]
  · refine h.of_draw (.of_eq ?_) rfl fun n hn => Shell.noConfusion hn
    simp only [places, hp, Shell.held, draw, makeJob, List.cons_append, List.nil_append]
  · have hbelow : n.place < s.drawn := by
      refine h.below n.place ?_
      simp only [places, hp, Shell.held, List.cons_append, List.mem_cons, true_or]
    refine h.of_perm ?_ rfl fun m hm => ?_
    · simp only [places, hp, Shell.held, List.nil_append, List.map_append, List.map_cons,
        List.map_nil, ← List.append_assoc]
      exact List.perm_append_comm
    · rw [← Shell.enqueued.inj hm]
      exact hbelow
  · refine h.of_perm (.of_eq ?_) rfl fun n hn => Shell.noConfusion hn
    simp only [places, hp, Shell.held]
  · refine h.of_perm (.of_eq ?_) rfl fun n hn => Shell.noConfusion hn
    simp only [places, hp, Shell.held]
  · refine h.of_perm (.of_eq ?_) rfl h.shown
    simp only [places, hp, afterJobLine_held]
    rfl
  · refine h.of_draw ?_ rfl h.shown
    simp only [places, hp, Daemon.held, draw, makeJob, List.append_nil, List.append_assoc,
      List.cons_append, List.nil_append]
    exact List.perm_middle
  · refine h.of_perm ?_ rfl h.shown
    simp only [places, hp, Daemon.held, List.append_nil, List.map_append, List.map_cons,
      List.map_nil, List.append_assoc]
    exact List.perm_append_comm.append_left s.shell.held

/-- The counter has not wrapped. -/
def Few (s : State) (_ : Action) : Prop := s.drawn ≤ turn

/-- Between the shell's number and what it prints, no other one is taken. -/
def Alone (s : State) : Action → Prop
  | .shellPrints => ∀ n, s.shell = .enqueued n → s.drawn = n.place + 1
  | _ => True

theorem fits_of_few {s : State} (h : Placed s) (hfew : s.drawn ≤ turn) {n : Numbered}
    (hn : n.place ∈ s.shell.held ++ s.daemon.held) : Fits s n := by
  intro m hm hturn
  have hmem : m.place ∈ s.accepted.map Numbered.place := List.mem_map_of_mem hm
  have hmlt := h.below m.place (List.mem_append_right _ hmem)
  have hnlt := h.below n.place (List.mem_append_left _ hn)
  have heq : m.place = n.place :=
    hturn.eq_of_lt_of_lt (Nat.lt_of_lt_of_le hmlt hfew) (Nat.lt_of_lt_of_le hnlt hfew)
  exact (List.nodup_append.mp h.nodup).2.2 n.place hn m.place hmem heq.symm

theorem drawn_iff_of_few {s : State} {p : Nat} (hp : p < s.drawn) (hfew : s.drawn ≤ turn) :
    s.drawn ≡ p + 1 [MOD turn] ↔ s.drawn = p + 1 := by
  constructor
  · intro h
    have hdvd := (Nat.modEq_iff_dvd' (Nat.succ_le_of_lt hp)).mp h.symm
    have hzero := Nat.eq_zero_of_dvd_of_lt hdvd (by omega)
    omega
  · exact fun h => h ▸ Nat.ModEq.refl s.drawn

theorem undisturbed_iff_of_few {s : State} {a : Action} (h : Placed s) (hfew : Few s a) :
    Undisturbed s a ↔ Alone s a := by
  cases a with
  | shellEnqueues =>
      refine iff_of_true (fun n hn => fits_of_few h hfew ?_) trivial
      rw [hn]
      exact List.mem_append_left _ List.mem_cons_self
  | daemonEnqueues =>
      refine iff_of_true (fun n hn => fits_of_few h hfew ?_) trivial
      rw [hn]
      exact List.mem_append_right _ List.mem_cons_self
  | shellPrints => exact forall₂_congr fun n hn => drawn_iff_of_few (h.shown n hn) hfew
  | shellLine _ | shellEof | shellMakes | shellWaits | daemonLine _ | daemonMakes => exact Iff.rfl

/-- As long as the counter has not wrapped, jobs have distinct numbers, and the
    announced ones are right exactly if the daemon takes none between the
    shell's number and what it prints. -/
theorem sound_of_few {as : List Action} (hfew : Along step Few init as) :
    Always step Sound init as ↔ Along step Alone init as := by
  rw [always_iff_along (fun _ _ _ h _ => counted_step h) (fun _ _ _ => sound_step_iff) as
    counted_init sound_init]
  exact along_congr (fun _ _ _ => placed_step) (fun _ _ => undisturbed_iff_of_few) placed_init hfew

end Numbering

end Isolyx
