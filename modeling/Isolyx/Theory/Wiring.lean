import Isolyx.Core.Pipeline

/-!
# The Wiring of a Pipeline

What each command of a pipeline has for its standard input and output, and what
the engine is left with, when every call succeeds.

The loop keeps one descriptor from one turn to the next, the read end of the
last pipe, and `Between` is that: on top of what was open at the call there is
this one number, or nothing before the first command. A turn puts the ends of a
new pipe on top, lets the child copy all of it, and takes away all but the new
read end (`parentBranch_pipe`). The child turns two of its numbers into 0 and 1
and closes what it took them from; since nothing was open at those numbers
before the call, what is left is what was open then (`lookup_childTable`).

That 0 and 1 were open at the call is what keeps the new numbers apart from
them. If one of them were free, the pipe would be opened there, and the child
would close the very descriptor it had just made.

## Main definitions

* `Between`: The engine's descriptors between two commands.
* `wiring`: What the descriptors of a child are to be.
* `Engine`: What holds of the engine while no call of its own has failed.
* `Wired`: A child as the pipeline wants it.

## Theorems

* `lookup_childTable`: A child comes to have the descriptors it is to have.
* `parentBranch_pipe`: The engine keeps the read end of the new pipe.
* `engine_step`: One step of the engine.
* `allWired_step`: One step, for the children.
* `waits_return`: The waits go through once all children have ended.
* `pipeline_wiring`: What a pipeline starts and leaves.
-/

namespace Isolyx

namespace Pipeline

open Descriptors (Table standard)
open Descriptors.Table
open Invocation (cString)
open Lifecycle (WaitStatus resultOf)
open Lts

theorem lookup_atEntry (entry : Table Nat) (m : Nat) :
    (atEntry entry).lookup m = (entry.lookup m).map .prior := 
  lookup_map Desc.prior entry m

/-- The engine's table and `prev_fd` before the command at a position is
    started: what was open at the call, and the read end of the last pipe. -/
def Between (entry : Table Nat) : Nat → Table Desc → Option Nat → Prop
  | 0, t, _ => t = atEntry entry
  | i + 1, t, prevFd =>
      ∃ n h, prevFd = some n ∧ t = (atEntry entry).push n (.readEnd i) h

/-- The descriptors of a command, but for the pipe it writes to. -/
def inherited (entry : Table Nat) (i m : Nat) : Option Desc :=
  if m = 0 ∧ 0 < i then some (.readEnd (i - 1)) else (atEntry entry).lookup m

/-- The child's first step: the read end of the last pipe becomes its standard
    input. Whatever is open besides stays. -/
theorem lookup_stdin {entry : Table Nat} {i : Nat} {t u : Table Desc} {prevFd : Option Nat}
    {top : Nat → Option Desc} (hb : Between entry i t prevFd) (h0 : entry.lookup 0 ≠ none)
    (hu : ∀ m, u.lookup m = (t.lookup m).or (top m))
    (htop : ∀ m, top m ≠ none → t.lookup m = none) (m : Nat) :
    (if 0 < i then moveFd u prevFd 0 else u).lookup m = (inherited entry i m).or (top m) := by
  cases i with
  | zero =>
      have ht : t = atEntry entry := hb
      rw [if_neg (Nat.lt_irrefl 0), hu, ht, inherited, if_neg fun h => Nat.lt_irrefl 0 h.2]
  | succ i =>
      rcases hb with ⟨n, hn, hprev, ht⟩
      have htn : t.lookup n = some (.readEnd i) := by rw [ht, lookup_push, if_pos rfl]
      have hun : u.lookup n = some (.readEnd i) := by rw [hu, htn, Option.some_or]
      have hne : n ≠ 0 := by
        rintro rfl
        rw [lookup_atEntry, Option.map_eq_none_iff] at hn
        exact h0 hn
      rw [if_pos (Nat.succ_pos i), hprev, moveFd, lookup_move hun, inherited]
      by_cases hm : m = n
      · have htopn : top n = none := by
          by_contra h
          rw [htop n h] at htn
          exact absurd htn (by simp only [reduceCtorEq, not_false_eq_true])
        rw [if_pos hm, hm, if_neg fun h => hne h.1, hn, htopn, Option.none_or]
      · rw [if_neg hm]
        by_cases hm0 : m = 0
        · rw [if_pos hm0, if_pos ⟨hm0, Nat.succ_pos i⟩, Option.some_or, Nat.add_sub_cancel]
        · rw [if_neg hm0, if_neg fun h => hm0 h.1, hu, ht, lookup_push, if_neg hm]

/-- A redirection puts the file at its number and leaves the others. -/
theorem lookup_redirect {t : Table Desc} {new : Nat} (hopen : t.lookup new ≠ none) (path : Bytes)
    (file : Desc) (m : Nat) :
    (redirect path file true new t).lookup m =
      if m = new ∧ ¬ path.isEmpty then some file else t.lookup m := by
  rw [redirect]
  cases hp : path.isEmpty with
  | true => rw [if_pos rfl, if_neg fun h => h.2 rfl]
  | false =>
      have hlook : (t.insert file).lookup t.free = some file := by
        rw [Table.insert, lookup_push, if_pos rfl]
      have hfree : t.free ≠ new := by
        rintro rfl
        exact hopen t.lookup_free
      rw [if_neg Bool.false_ne_true, if_pos rfl, moveFd, lookup_move hlook, Table.insert,
        lookup_push]
      by_cases hmf : m = t.free
      · rw [if_pos hmf, if_neg fun h => hfree (hmf.symm.trans h.1), hmf, t.lookup_free]
      · rw [if_neg hmf]
        by_cases hm : m = new
        · rw [if_pos hm, if_pos ⟨hm, Bool.false_ne_true⟩]
        · rw [if_neg hm, if_neg hmf, if_neg fun h => hm h.1]

/-- What the descriptors of the child are before its redirections. -/
def plumbing (pipeline : List Command) (entry : Table Nat) (i m : Nat) : Option Desc :=
  if m = 1 ∧ i + 1 < pipeline.length then some (.writeEnd i) else inherited entry i m

/-- What the descriptors of the child at a position are to be. -/
def wiring (pipeline : List Command) (entry : Table Nat) (i : Nat) (cmd : Command) (m : Nat) :
    Option Desc :=
  if m = 0 ∧ ¬ cmd.redirectInput.isEmpty then some (.input (cString cmd.redirectInput))
  else if m = 1 ∧ ¬ cmd.redirectOutput.isEmpty then some (.output (cString cmd.redirectOutput))
  else plumbing pipeline entry i m

/-- The redirections of a child that has both its descriptors. -/
theorem lookup_redirections {pipeline : List Command} {entry : Table Nat} {i : Nat} (cmd : Command)
    {t : Table Desc} (h0 : entry.lookup 0 ≠ none) (h1 : entry.lookup 1 ≠ none)
    (ht : ∀ m, t.lookup m = plumbing pipeline entry i m) (m : Nat) :
    (redirect cmd.redirectInput (.input (cString cmd.redirectInput)) true 0
      (redirect cmd.redirectOutput (.output (cString cmd.redirectOutput)) true 1 t)).lookup m =
        wiring pipeline entry i cmd m := by
  have hopen1 : t.lookup 1 ≠ none := by
    rw [ht, plumbing, inherited, if_neg fun h : 1 = 0 ∧ 0 < i => Nat.one_ne_zero h.1,
      lookup_atEntry]
    by_cases h : 1 = 1 ∧ i + 1 < pipeline.length
    · rw [if_pos h]
      exact Option.some_ne_none (Desc.writeEnd i)
    · rw [if_neg h, Ne, Option.map_eq_none_iff]
      exact h1
  have hopen0 : (redirect cmd.redirectOutput (.output (cString cmd.redirectOutput)) true 1 t).lookup
      0 ≠ none := by
    rw [lookup_redirect hopen1, if_neg fun h => Nat.zero_ne_one h.1, ht, plumbing,
      if_neg fun h => Nat.zero_ne_one h.1, inherited, lookup_atEntry]
    by_cases h : 0 = 0 ∧ 0 < i
    · rw [if_pos h]
      exact Option.some_ne_none (Desc.readEnd (i - 1))
    · rw [if_neg h, Ne, Option.map_eq_none_iff]
      exact h0
  rw [lookup_redirect hopen0, lookup_redirect hopen1, ht, wiring]

/-- The last command has no pipe to write to. -/
theorem lookup_childTable_last {pipeline : List Command} {entry : Table Nat} {i : Nat}
    {cmd : Command} {t : Table Desc} {prevFd : Option Nat} (h0 : entry.lookup 0 ≠ none)
    (h1 : entry.lookup 1 ≠ none) (hb : Between entry i t prevFd) (hi : i + 1 = pipeline.length)
    (m : Nat) :
    (childTable cmd i prevFd none true true t).lookup m = wiring pipeline entry i cmd m := by
  refine lookup_redirections cmd h0 h1 (fun n => ?_) m
  have hu : ∀ k, t.lookup k = (t.lookup k).or none := fun k => Option.or_none.symm
  have hstdin := lookup_stdin hb h0 hu (fun k hk => absurd rfl hk) n
  rw [Option.or_none] at hstdin
  change (if 0 < i then moveFd t prevFd 0 else t).lookup n = plumbing pipeline entry i n
  rw [hstdin, plumbing, if_neg fun h => absurd hi (Nat.ne_of_lt h.2)]

/-- The ends of the pipe just made, on top of a table. -/
def ends (i readFd writeFd m : Nat) : Option Desc :=
  if m = writeFd then some (.writeEnd i) else if m = readFd then some (.readEnd i) else none

theorem Between.free {entry : Table Nat} {i m : Nat} {t : Table Desc} {prevFd : Option Nat}
    (hb : Between entry i t prevFd) (h : t.lookup m = none) : (atEntry entry).lookup m = none := by
  cases i with
  | zero => exact hb ▸ h
  | succ i =>
      rcases hb with ⟨n, hn, -, rfl⟩
      exact ((lookup_push_eq_none hn).mp h).2

/-- A number that was not open is no standard one. -/
theorem ne_of_free {entry : Table Nat} {m n : Nat} (h : (atEntry entry).lookup m = none)
    (hn : entry.lookup n ≠ none) : m ≠ n := by
  rintro rfl
  rw [lookup_atEntry, Option.map_eq_none_iff] at h
  exact hn h

theorem inherited_free {entry : Table Nat} {i m : Nat} (h : (atEntry entry).lookup m = none)
    (h0 : entry.lookup 0 ≠ none) : inherited entry i m = none := by
  rw [inherited, if_neg fun hm => ne_of_free h h0 hm.1, h]

theorem lookup_childTable {pipeline : List Command} {entry : Table Nat} {i : Nat}
    {cmd : Command} {t : Table Desc} {prevFd : Option Nat} {readFd writeFd : Nat}
    (h0 : entry.lookup 0 ≠ none) (h1 : entry.lookup 1 ≠ none) (hb : Between entry i t prevFd)
    (hi : i + 1 < pipeline.length) (hr : t.lookup readFd = none)
    (hw : (t.push readFd (.readEnd i) hr).lookup writeFd = none) (m : Nat) :
    (childTable cmd i prevFd (some (readFd, writeFd)) true true
      ((t.push readFd (.readEnd i) hr).push writeFd (.writeEnd i) hw)).lookup m =
        wiring pipeline entry i cmd m := by
  refine lookup_redirections cmd h0 h1 (fun n => ?_) m
  have hfree := (lookup_push_eq_none hr).mp hw
  have hwr : writeFd ≠ readFd := hfree.1
  have hwt : t.lookup writeFd = none := hfree.2
  have hrin := @inherited_free entry i readFd (hb.free hr) h0
  have hwin := @inherited_free entry i writeFd (hb.free hwt) h0
  -- The ends of the new pipe are where nothing was open.
  have hu : ∀ k, ((t.push readFd (.readEnd i) hr).push writeFd (.writeEnd i) hw).lookup k =
      (t.lookup k).or (ends i readFd writeFd k) := by
    intro k
    rw [lookup_push, lookup_push, ends]
    by_cases hkw : k = writeFd
    · rw [if_pos hkw, if_pos hkw, hkw, hwt, Option.none_or]
    · rw [if_neg hkw, if_neg hkw]
      by_cases hkr : k = readFd
      · rw [if_pos hkr, if_pos hkr, hkr, hr, Option.none_or]
      · rw [if_neg hkr, if_neg hkr, Option.or_none]
  have htop : ∀ k, ends i readFd writeFd k ≠ none → t.lookup k = none := by
    intro k hk
    rw [ends] at hk
    by_cases hkw : k = writeFd
    · rw [hkw, hwt]
    · by_cases hkr : k = readFd
      · rw [hkr, hr]
      · rw [if_neg hkw, if_neg hkr] at hk
        exact absurd rfl hk
  have hstdin := lookup_stdin hb h0 hu htop
  have hwrite := hstdin writeFd
  rw [hwin, Option.none_or, ends, if_pos rfl] at hwrite
  change (((if 0 < i then moveFd _ prevFd 0 else _ : Table Desc).move writeFd 1).close
    readFd).lookup n = _
  rw [lookup_close, lookup_move hwrite, hstdin, plumbing, ends]
  by_cases hnr : n = readFd
  · rw [if_pos hnr, hnr, if_neg fun h => ne_of_free (hb.free hr) h1 h.1, hrin]
  · rw [if_neg hnr]
    by_cases hnw : n = writeFd
    · rw [if_pos hnw, hnw, if_neg fun h => ne_of_free (hb.free hwt) h1 h.1, hwin]
    · rw [if_neg hnw]
      by_cases hn1 : n = 1
      · rw [if_pos hn1, if_pos ⟨hn1, hi⟩]
      · rw [if_neg hn1, if_neg hnw, if_neg hnr, Option.or_none, if_neg fun h => hn1 h.1]

/-- The parent closes the read end of the last pipe, whatever it opened since. -/
theorem close_prev {entry : Table Nat} {i : Nat} {t : Table Desc} {prevFd : Option Nat}
    (hb : Between entry i t prevFd) :
    (if 0 < i then closeFd t prevFd else t) = atEntry entry := by
  cases i with
  | zero => exact hb
  | succ i =>
      rcases hb with ⟨n, hn, rfl, rfl⟩
      exact close_push hn

theorem parentBranch_last {entry : Table Nat} {i : Nat} {t : Table Desc} {prevFd : Option Nat}
    (hb : Between entry i t prevFd) : (parentBranch i prevFd none t).1 = atEntry entry :=
  close_prev hb

/-- The parent keeps the read end of the new pipe and nothing else. -/
theorem parentBranch_pipe {entry : Table Nat} {i : Nat} {t : Table Desc} {prevFd : Option Nat}
    {readFd writeFd : Nat} (hb : Between entry i t prevFd) (hr : t.lookup readFd = none)
    (hw : (t.push readFd (.readEnd i) hr).lookup writeFd = none) :
    Between entry (i + 1)
      (parentBranch i prevFd (some (readFd, writeFd))
        ((t.push readFd (.readEnd i) hr).push writeFd (.writeEnd i) hw)).1
      (parentBranch i prevFd (some (readFd, writeFd))
        ((t.push readFd (.readEnd i) hr).push writeFd (.writeEnd i) hw)).2 := by
  refine ⟨readFd, hb.free hr, rfl, ?_⟩
  cases i with
  | zero =>
      have ht : t = atEntry entry := hb
      subst ht
      exact close_push hw
  | succ i =>
      rcases hb with ⟨n, hn, rfl, rfl⟩
      have hnr : readFd ≠ n := ((lookup_push_eq_none hn).mp hr).1
      have hnw : writeFd ≠ n := ((lookup_push_eq_none hn).mp ((lookup_push_eq_none hr).mp hw).2).1
      change (((((atEntry entry).push n (.readEnd i) hn).push readFd (.readEnd (i + 1)) hr).push
        writeFd (.writeEnd (i + 1)) hw).close n).close writeFd = _
      rw [close_push_of_ne hw hnw, close_push, close_push_of_ne hr hnr]
      simp only [close_push]

/-- The children up to a position are reaped, and no others. -/
def ReapedUpTo (j : Nat) (children : List Child) : Prop :=
  ∀ k c, children[k]? = some c → (c.isReaped = true ↔ k < j)

theorem reapedUpTo_ends {children : List Child} {j k : Nat} {c : Child} (status : WaitStatus)
    (h : ReapedUpTo j children) (hk : children[k]? = some c) (hc : c.status = .running) :
    ReapedUpTo j (children.set k { c with status := .zombie status }) := by
  intro m d hd
  rw [List.getElem?_set] at hd
  by_cases hkm : k = m
  · -- It was running, so not reaped, and a zombie is not reaped either.
    have hold := h k c hk
    rw [Child.isReaped, hc] at hold
    simp only [hkm, if_true, Option.ite_none_right_eq_some, Option.some.injEq] at hd
    rw [← hd.2, ← hkm]
    exact hold
  · rw [if_neg hkm] at hd
    exact h m d hd

theorem reapedUpTo_reap {children : List Child} {j : Nat} {c : Child} {status : WaitStatus}
    (h : ReapedUpTo j children) :
    ReapedUpTo (j + 1) (children.set j { c with status := .reaped status }) := by
  intro m d hd
  rw [List.getElem?_set] at hd
  by_cases hjm : j = m
  · simp only [hjm, if_true, Option.ite_none_right_eq_some, Option.some.injEq] at hd
    rw [← hd.2, hjm]
    exact iff_of_true rfl (Nat.lt_succ_self m)
  · rw [if_neg hjm] at hd
    rw [h m d hd]
    omega

theorem reapedUpTo_fork {children : List Child} {c : Child} (h : ReapedUpTo 0 children)
    (hc : c.isReaped = false) : ReapedUpTo 0 (children ++ [c]) := by
  intro m d hd
  rcases Nat.lt_or_ge m children.length with hm | hm
  · rw [List.getElem?_append_left hm] at hd
    exact h m d hd
  · rw [List.getElem?_append_right hm, List.getElem?_singleton, Option.ite_none_right_eq_some,
      Option.some.injEq] at hd
    rw [← hd.2, hc]
    exact iff_of_false Bool.false_ne_true (Nat.not_lt_zero m)

/-- What holds of the engine while no call of its own has failed. -/
def Engine (pipeline : List Command) (entry : Table Nat) (s : State) : Prop :=
  match s.phase with
  | .piping i =>
      i + 1 < pipeline.length ∧ s.children.length = i ∧ ReapedUpTo 0 s.children ∧
        Between entry i s.table s.prevFd
  | .forking i none =>
      i + 1 = pipeline.length ∧ s.children.length = i ∧ ReapedUpTo 0 s.children ∧
        Between entry i s.table s.prevFd
  | .forking i (some (readFd, writeFd)) =>
      i + 1 < pipeline.length ∧ s.children.length = i ∧ ReapedUpTo 0 s.children ∧
        ∃ t hr hw, Between entry i t s.prevFd ∧
          s.table = (t.push readFd (.readEnd i) hr).push writeFd (.writeEnd i) hw
  | .waiting j _ =>
      j < pipeline.length ∧ s.children.length = pipeline.length ∧ ReapedUpTo j s.children ∧
        s.table = atEntry entry
  | .returned result =>
      s.children.length = pipeline.length ∧ s.table = atEntry entry ∧
        (isBackground pipeline = false → ReapedUpTo pipeline.length s.children ∧
          ∃ c status, s.children.getLast? = some c ∧ c.status = .reaped status ∧
            result = resultOf status)
  | .delegated => False

/-- At the test of the loop over the commands. -/
theorem engine_phaseAt {pipeline : List Command} {entry : Table Nat} {s : State} {i : Nat}
    (hphase : s.phase = phaseAt pipeline i)
    (hlen : s.children.length = i) (hi : i ≤ pipeline.length) (hpos : 0 < pipeline.length)
    (hreaped : ReapedUpTo 0 s.children)
    (hmore : i < pipeline.length → Between entry i s.table s.prevFd)
    (hlast : i = pipeline.length → s.table = atEntry entry) : Engine pipeline entry s := by
  rw [Engine, hphase, phaseAt]
  by_cases hpipe : i + 1 < pipeline.length
  · rw [if_pos hpipe]
    exact ⟨hpipe, hlen, hreaped, hmore (Nat.lt_of_succ_lt hpipe)⟩
  · rw [if_neg hpipe]
    by_cases hfork : i < pipeline.length
    · rw [if_pos hfork]
      exact ⟨by omega, hlen, hreaped, hmore hfork⟩
    · rw [if_neg hfork]
      have heq : i = pipeline.length := by omega
      cases hbg : isBackground pipeline with
      | true =>
          rw [if_pos rfl]
          exact ⟨hlen.trans heq, hlast heq, fun h => absurd h (by simp)⟩
      | false =>
          rw [if_neg Bool.false_ne_true]
          exact ⟨hpos, hlen.trans heq, hreaped, hlast heq⟩

theorem engine_init {pipeline : List Command} (entry : Table Nat) (hn : 2 ≤ pipeline.length) :
    Engine pipeline entry (init pipeline entry) := by
  have hphase : (init pipeline entry).phase = phaseAt pipeline 0 := by
    match pipeline, hn with
    | _ :: _ :: _, _ => rfl
  refine engine_phaseAt hphase rfl (Nat.zero_le _) (by omega) ?_ (fun _ => rfl)
    (fun _ => rfl)
  intro k c hc
  exact absurd hc (by simp [init])

theorem engine_forked {pipeline : List Command} {entry : Table Nat} {s : State} {i pid : Nat}
    {fd : Option (Nat × Nat)} {cmd : Command} {opensOutput opensInput : Bool}
    (h : Engine pipeline entry s) (hp : s.phase = .forking i fd) :
    Engine pipeline entry (forked pipeline s i fd pid cmd opensOutput opensInput) := by
  rw [Engine, hp] at h
  cases fd with
  | none =>
      rcases h with ⟨hi, hlen, hreaped, hb⟩
      refine engine_phaseAt rfl ?_ (Nat.le_of_eq hi) (by omega) (reapedUpTo_fork hreaped rfl)
        (fun hlt => absurd hi (Nat.ne_of_lt hlt)) fun _ => parentBranch_last hb
      rw [forked, List.length_append, hlen, List.length_singleton]
  | some ends =>
      rcases ends with ⟨readFd, writeFd⟩
      rcases h with ⟨hi, hlen, hreaped, t, hr, hw, hb, ht⟩
      refine engine_phaseAt rfl ?_ (Nat.le_of_lt hi) (by omega) (reapedUpTo_fork hreaped rfl)
        (fun _ => ?_) fun heq => absurd heq (Nat.ne_of_lt hi)
      · rw [forked, List.length_append, hlen, List.length_singleton]
      · rw [forked, ht]
        exact parentBranch_pipe hb hr hw

/-- The end of a child changes nothing the engine relies on. -/
theorem engine_ends {pipeline : List Command} {entry : Table Nat} {s : State} {k : Nat} {c : Child}
    (status : WaitStatus) (h : Engine pipeline entry s) (hk : s.children[k]? = some c)
    (hc : c.status = .running) :
    Engine pipeline entry
      { s with children := s.children.set k { c with status := .zombie status } } := by
  have hreap : ∀ j, ReapedUpTo j s.children →
      ReapedUpTo j (s.children.set k { c with status := .zombie status }) := fun j hj =>
    reapedUpTo_ends status hj hk hc
  have hlen : (s.children.set k { c with status := .zombie status }).length = s.children.length :=
    List.length_set
  rw [Engine] at h ⊢
  cases hp : s.phase with
  | piping i =>
      simp only [hp, hlen] at h ⊢
      exact ⟨h.1, h.2.1, hreap 0 h.2.2.1, h.2.2.2⟩
  | forking i fd =>
      cases fd with
      | none =>
          simp only [hp, hlen] at h ⊢
          exact ⟨h.1, h.2.1, hreap 0 h.2.2.1, h.2.2.2⟩
      | some ends =>
          simp only [hp, hlen] at h ⊢
          exact ⟨h.1, h.2.1, hreap 0 h.2.2.1, h.2.2.2⟩
  | waiting j result =>
      simp only [hp, hlen] at h ⊢
      exact ⟨h.1, h.2.1, hreap j h.2.2.1, h.2.2.2⟩
  | returned result =>
      simp only [hp, hlen] at h ⊢
      refine ⟨h.1, h.2.1, fun hfg => ?_⟩
      -- In the foreground everything is reaped by then, and this child is not.
      have hreaped := ((h.2.2 hfg).1 k c hk).mpr (h.1 ▸ (List.getElem?_eq_some_iff.mp hk).1)
      rw [Child.isReaped, hc] at hreaped
      exact absurd hreaped Bool.false_ne_true
  | delegated => simp only [hp] at h

/-- The last wait has the say about the result. -/
theorem engine_reap {pipeline : List Command} {entry : Table Nat} {s : State} {j : Nat} {c : Child}
    {result : ExecutionResult} (status : WaitStatus) (h : Engine pipeline entry s)
    (hp : s.phase = .waiting j result) (hj : s.children[j]? = some c) :
    Engine pipeline entry (reap s j c status result) := by
  simp only [Engine, hp] at h
  rcases h with ⟨hlt, hlen, hreaped, htable⟩
  have hlen' : (s.children.set j { c with status := .reaped status }).length = pipeline.length :=
    List.length_set.trans hlen
  have hnext : ReapedUpTo (j + 1) (s.children.set j { c with status := .reaped status }) :=
    reapedUpTo_reap hreaped
  by_cases hmore : j + 1 < s.children.length
  · simp only [Engine, reap, hmore, if_true]
    exact ⟨hlen ▸ hmore, hlen', hnext, htable⟩
  · have hj1 : j + 1 = pipeline.length := by omega
    have hlast : s.children.getLast? = some c := by
      rw [List.getLast?_eq_getElem?, hlen, ← hj1, Nat.add_sub_cancel, hj]
    simp only [Engine, reap, hmore, if_false]
    refine ⟨hlen', htable, fun _ => ⟨hj1 ▸ hnext, { c with status := .reaped status }, status, ?_,
      rfl, ?_⟩⟩
    · rw [List.getLast?_eq_getElem?, hlen', ← hj1, Nat.add_sub_cancel,
        List.getElem?_set_self (by omega)]
    · rw [afterWait, hlast, Option.map_some, if_pos rfl]

/-- A step whose call does not fail keeps the engine as it should be. -/
theorem engine_step {pipeline : List Command} {entry : Table Nat} {s t : State} {a : Action}
    (h : Engine pipeline entry s) (ha : a.made = true) (hs : step pipeline s a = some t) :
    Engine pipeline entry t := by
  cases moves_of_step hs with
  | pipes i hp =>
      simp only [Engine, hp] at h
      rcases h with ⟨hi, hlen, hreaped, hb⟩
      exact ⟨hi, hlen, hreaped, s.table, s.table.lookup_free,
        (s.table.insert (.readEnd i)).lookup_free, hb, rfl⟩
  | pipeFails i hp => exact absurd ha Bool.false_ne_true
  | forks i fd pid cmd opensOutput opensInput hp hc hpid => exact engine_forked h hp
  | forkFails i fd opensOutput opensInput hp => exact absurd ha Bool.false_ne_true
  | ended k c status hk hc => exact engine_ends status h hk hc
  | waits j c status result hp hj hc => exact engine_reap status h hp hj

/-- A child as the pipeline wants it at the call of `execvp`. -/
structure Wired (pipeline : List Command) (entry : Table Nat) (i : Nat) (cmd : Command)
    (c : Child) : Prop where
  argv : c.argv = cmd.arguments.map cString
  input : c.table.lookup 0 =
    if ¬ cmd.redirectInput.isEmpty then some (.input (cString cmd.redirectInput))
    else if 0 < i then some (.readEnd (i - 1))
    else (entry.lookup 0).map .prior
  output : c.table.lookup 1 =
    if ¬ cmd.redirectOutput.isEmpty then some (.output (cString cmd.redirectOutput))
    else if i + 1 < pipeline.length then some (.writeEnd i)
    else (entry.lookup 1).map .prior
  others : ∀ m, 2 ≤ m → c.table.lookup m = (entry.lookup m).map .prior

theorem wired_of_lookup {pipeline : List Command} {entry : Table Nat} {i : Nat} {cmd : Command}
    {c : Child} (hargv : c.argv = cmd.arguments.map cString)
    (h : ∀ m, c.table.lookup m = wiring pipeline entry i cmd m) :
    Wired pipeline entry i cmd c where
  argv := hargv
  input := by
    rw [h, wiring, plumbing, inherited, lookup_atEntry]
    simp only [true_and, Nat.zero_ne_one, false_and, if_false]
  output := by
    rw [h, wiring, plumbing, inherited, lookup_atEntry]
    simp only [true_and, Nat.one_ne_zero, false_and, if_false]
  others := by
    intro m hm
    rw [h, wiring, plumbing, inherited, lookup_atEntry, if_neg (by omega), if_neg (by omega),
      if_neg (by omega), if_neg (by omega)]

/-- Every child is wired, whether it has ended or not. -/
def AllWired (pipeline : List Command) (entry : Table Nat) (s : State) : Prop :=
  ∀ i c, s.children[i]? = some c → ∃ cmd, pipeline[i]? = some cmd ∧ Wired pipeline entry i cmd c

/-- What becomes of a child does not change how it was started. -/
theorem allWired_set {pipeline : List Command} {entry : Table Nat} {children : List Child} {k : Nat}
    {c : Child} {st : ChildStatus}
    (h : ∀ i c, children[i]? = some c →
      ∃ cmd, pipeline[i]? = some cmd ∧ Wired pipeline entry i cmd c)
    (hk : children[k]? = some c) (i : Nat) (d : Child)
    (hd : (children.set k { c with status := st })[i]? = some d) :
    ∃ cmd, pipeline[i]? = some cmd ∧ Wired pipeline entry i cmd d := by
  rw [List.getElem?_set] at hd
  by_cases hki : k = i
  · simp only [hki, if_true, Option.ite_none_right_eq_some, Option.some.injEq] at hd
    rcases h k c hk with ⟨cmd, hcmd, hw⟩
    rw [← hd.2, ← hki]
    exact ⟨cmd, hcmd, hw.argv, hw.input, hw.output, hw.others⟩
  · rw [if_neg hki] at hd
    exact h i d hd

theorem forking_length {pipeline : List Command} {entry : Table Nat} {s : State} {i : Nat}
    {fd : Option (Nat × Nat)} (h : Engine pipeline entry s) (hp : s.phase = .forking i fd) :
    s.children.length = i := by
  cases fd with
  | none =>
      simp only [Engine, hp] at h
      exact h.2.1
  | some ends =>
      simp only [Engine, hp] at h
      exact h.2.1

/-- The child about to be forked comes to have the descriptors it is to have. -/
theorem lookup_forked {pipeline : List Command} {entry : Table Nat} {s : State} {i : Nat}
    {fd : Option (Nat × Nat)} {cmd : Command} (h0 : entry.lookup 0 ≠ none)
    (h1 : entry.lookup 1 ≠ none) (h : Engine pipeline entry s) (hp : s.phase = .forking i fd)
    (m : Nat) :
    (childTable cmd i s.prevFd fd true true s.table).lookup m = wiring pipeline entry i cmd m := by
  cases fd with
  | none =>
      simp only [Engine, hp] at h
      exact lookup_childTable_last h0 h1 h.2.2.2 h.1 m
  | some ends =>
      rcases ends with ⟨readFd, writeFd⟩
      simp only [Engine, hp] at h
      rcases h with ⟨hi, -, -, t, hr, hw, hb, ht⟩
      rw [ht]
      exact lookup_childTable h0 h1 hb hi hr hw m

theorem allWired_step {pipeline : List Command} {entry : Table Nat} {s t : State} {a : Action}
    (h0 : entry.lookup 0 ≠ none) (h1 : entry.lookup 1 ≠ none) (he : Engine pipeline entry s)
    (h : AllWired pipeline entry s) (ha : a.opens = true) (hs : step pipeline s a = some t) :
    AllWired pipeline entry t := by
  cases moves_of_step hs with
  | pipes i hp => exact h
  | pipeFails i hp => exact h
  | forks i fd pid cmd opensOutput opensInput hp hc hpid =>
      rw [Action.opens, Bool.and_eq_true] at ha
      intro k d hd
      rw [forked] at hd
      rcases Nat.lt_or_ge k s.children.length with hk | hk
      · rw [List.getElem?_append_left hk] at hd
        exact h k d hd
      · rw [List.getElem?_append_right hk, List.getElem?_singleton, Option.ite_none_right_eq_some,
          Option.some.injEq] at hd
        rcases hd with ⟨hk0, rfl⟩
        have hki : k = i := by
          have := forking_length he hp
          omega
        refine ⟨cmd, hki ▸ hc, wired_of_lookup rfl fun m => ?_⟩
        rw [hki, ha.1, ha.2]
        exact lookup_forked h0 h1 he hp m
  | forkFails i fd opensOutput opensInput hp => exact h
  | ended k c status hk hc => exact allWired_set h hk
  | waits j c status result hp hj hc => exact allWired_set h hj

/-- Both invariants, over a run in which every call succeeds. -/
theorem wired_run {pipeline : List Command} {entry : Table Nat} {s : State} {as : List Action}
    (hn : 2 ≤ pipeline.length) (h0 : entry.lookup 0 ≠ none) (h1 : entry.lookup 1 ≠ none)
    (has : ∀ a ∈ as, a.made = true ∧ a.opens = true)
    (hr : run (step pipeline) (init pipeline entry) as = some s) :
    Engine pipeline entry s ∧ AllWired pipeline entry s := by
  have hstart : Engine pipeline entry (init pipeline entry) ∧
      AllWired pipeline entry (init pipeline entry) :=
    ⟨engine_init entry hn, fun i c hc => absurd hc (by simp [init])⟩
  refine end_of_along (P := fun u => Engine pipeline entry u ∧ AllWired pipeline entry u)
    (G := fun _ a => a.made = true ∧ a.opens = true) ?_ hstart
    (along_of_forall fun a ha _ => has a ha) hr
  intro u a v hu ha hs
  exact ⟨engine_step hu.1 ha.1 hs, allWired_step h0 h1 hu.1 hu.2 ha.2 hs⟩

/-- Nothing open before the call is an end of a pipe of this one. -/
theorem prior_ne_writeEnd {entry : Table Nat} {m i : Nat} :
    (entry.lookup m).map Desc.prior ≠ some (.writeEnd i) := by
  intro h
  rcases Option.map_eq_some_iff.mp h with ⟨file, -, hfile⟩
  exact absurd hfile (by simp only [reduceCtorEq, not_false_eq_true])

/-- The write end of a pipe is the standard output of the child before it. -/
theorem wired_writeEnd {pipeline : List Command} {entry : Table Nat} {i j m : Nat} {cmd : Command}
    {c : Child} (h : Wired pipeline entry j cmd c) (hm : c.table.lookup m = some (.writeEnd i)) :
    j = i ∧ m = 1 := by
  match m with
  | 0 =>
      rw [h.input] at hm
      split_ifs at hm
      · exact absurd hm (by simp)
      · exact absurd hm prior_ne_writeEnd
      · exact absurd hm (by simp)
  | 1 =>
      rw [h.output] at hm
      split_ifs at hm
      · exact ⟨Desc.writeEnd.inj (Option.some.inj hm), rfl⟩
      · exact absurd hm prior_ne_writeEnd
      · exact absurd hm (by simp)
  | m + 2 =>
      rw [h.others (m + 2) (by omega)] at hm
      exact absurd hm prior_ne_writeEnd

/-- The engine has the write end of a pipe only until the child is forked. -/
theorem engine_writeEnd {pipeline : List Command} {entry : Table Nat} {s : State} {i m : Nat}
    (h : Engine pipeline entry s) (hm : s.table.lookup m = some (.writeEnd i)) :
    ∃ fd, s.phase = .forking i fd := by
  have hentry : (atEntry entry).lookup m ≠ some (.writeEnd i) := by
    rw [lookup_atEntry]
    exact prior_ne_writeEnd
  have hbetween : ∀ {k : Nat} {t : Table Desc}, Between entry k t s.prevFd →
      t.lookup m ≠ some (.writeEnd i) := by
    intro k t hb ht
    cases k with
    | zero => exact hentry (hb ▸ ht)
    | succ k =>
        rcases hb with ⟨n, hn, -, rfl⟩
        rw [lookup_push] at ht
        split_ifs at ht
        · exact absurd ht (by simp)
        · exact hentry ht
  rw [Engine] at h
  cases hp : s.phase with
  | piping k =>
      simp only [hp] at h
      exact absurd hm (hbetween h.2.2.2)
  | forking k fd =>
      cases fd with
      | none =>
          simp only [hp] at h
          exact absurd hm (hbetween h.2.2.2)
      | some ends =>
          simp only [hp] at h
          rcases h with ⟨-, -, -, t, hr, hw, hb, ht⟩
          rw [ht, lookup_push, lookup_push] at hm
          split_ifs at hm
          · exact ⟨_, congrArg (Phase.forking · _) (Desc.writeEnd.inj (Option.some.inj hm))⟩
          · exact absurd hm (by simp)
          · exact absurd hm (hbetween hb)
  | waiting j result =>
      simp only [hp] at h
      exact absurd (h.2.2.2 ▸ hm) hentry
  | returned result =>
      simp only [hp] at h
      exact absurd (h.2.1 ▸ hm) hentry
  | delegated => simp only [hp] at h

/-- Once all children have ended, the waits go through one after the other. -/
theorem waits_return {pipeline : List Command} {entry : Table Nat} {k : Nat} :
    ∀ {s : State} {j : Nat} {result : ExecutionResult}, Engine pipeline entry s →
      s.phase = .waiting j result → j + k = pipeline.length →
      (∀ c ∈ s.children, c.status ≠ .running) →
      ∃ t result', run (step pipeline) s (List.replicate k .waitpid) = some t ∧
        t.phase = .returned result' := by
  induction k with
  | zero =>
      intro s j result h hp hk hended
      simp only [Engine, hp] at h
      exact absurd h.1 (by omega)
  | succ k ih =>
      intro s j result h hp hk hended
      have he := h
      simp only [Engine, hp] at he
      rcases he with ⟨hlt, hlen, hreaped, -⟩
      have hj : j < s.children.length := hlen ▸ hlt
      have hget := List.getElem?_eq_getElem hj
      cases hc : s.children[j].status with
      | running => exact absurd hc (hended _ (List.getElem_mem hj))
      | reaped status =>
          have hnot := (hreaped j _ hget).mp (by rw [Child.isReaped, hc])
          exact absurd hnot (Nat.lt_irrefl j)
      | zombie status =>
          have hstep : step pipeline s .waitpid =
              some (reap s j s.children[j] status result) := by
            simp only [step, hp, hget, hc]
          have hnext := engine_reap status h hp hget
          by_cases hmore : j + 1 < s.children.length
          · have hphase : (reap s j s.children[j] status result).phase =
                .waiting (j + 1) (afterWait s.children s.children[j] status result) := by
              rw [reap, if_pos hmore]
            have hstill : ∀ c ∈ (reap s j s.children[j] status result).children,
                c.status ≠ .running := by
              intro c hcm
              rcases List.mem_or_eq_of_mem_set hcm with hold | rfl
              · exact hended c hold
              · simp only [ne_eq, reduceCtorEq, not_false_eq_true]
            rcases ih hnext hphase (by omega) hstill with ⟨t, result', hrun, ht⟩
            exact ⟨t, result', run_cons.mpr ⟨_, hstep, hrun⟩, ht⟩
          · have hk0 : k = 0 := by omega
            have hrun : run (step pipeline) s (List.replicate (k + 1) .waitpid) =
                some (reap s j s.children[j] status result) := by
              rw [hk0]
              exact run_cons.mpr ⟨_, hstep, rfl⟩
            refine ⟨_, afterWait s.children s.children[j] status result, hrun, ?_⟩
            rw [reap, if_neg hmore]

/-- A pipeline of two commands or more, started while the first three
    descriptors were open: each child has its two ends and nothing else of the
    pipes, the engine keeps none, and a pipeline in the foreground is over when
    all its commands are, with the result of the last. -/
theorem pipeline_wiring {pipeline : List Command} {entry : Table Nat} {s : State}
    {as : List Action} (hn : 2 ≤ pipeline.length) (hopen : ∀ m < 3, entry.lookup m ≠ none)
    (has : ∀ a ∈ as, a.made = true ∧ a.opens = true)
    (hr : run (step pipeline) (init pipeline entry) as = some s) :
    (∀ i c, s.children[i]? = some c →
      ∃ cmd, pipeline[i]? = some cmd ∧ Wired pipeline entry i cmd c) ∧
    (∀ i j (c : Child) m, s.children[j]? = some c → c.table.lookup m = some (.writeEnd i) →
      j = i ∧ m = 1) ∧
    (∀ i m, s.table.lookup m = some (.writeEnd i) → ∃ fd, s.phase = .forking i fd) ∧
    (∀ result, s.phase = .returned result →
      s.table = atEntry entry ∧ s.children.length = pipeline.length ∧
        (isBackground pipeline = false → (∀ c ∈ s.children, c.isReaped = true) ∧
          ∃ c status, s.children.getLast? = some c ∧ c.status = .reaped status ∧
            result = resultOf status)) ∧
    (∀ j result, s.phase = .waiting j result → (∀ c ∈ s.children, c.status ≠ .running) →
      ∃ k t result', run (step pipeline) s (List.replicate k .waitpid) = some t ∧
        t.phase = .returned result') := by
  have h := wired_run hn (hopen 0 (by decide)) (hopen 1 (by decide)) has hr
  refine ⟨h.2, ?_, fun i m hm => engine_writeEnd h.1 hm, ?_, ?_⟩
  · intro i j c m hc hm
    rcases h.2 j c hc with ⟨cmd, -, hw⟩
    exact wired_writeEnd hw hm
  · intro result hp
    have he := h.1
    simp only [Engine, hp] at he
    refine ⟨he.2.1, he.1, fun hfg => ⟨fun c hc => ?_, (he.2.2 hfg).2⟩⟩
    rcases List.mem_iff_getElem?.mp hc with ⟨k, hk⟩
    exact ((he.2.2 hfg).1 k c hk).mpr (he.1 ▸ (List.getElem?_eq_some_iff.mp hk).1)
  · intro j result hp hended
    have he := h.1
    simp only [Engine, hp] at he
    exact ⟨pipeline.length - j, waits_return h.1 hp (by omega) hended⟩

/-- The pipeline `a | b`. -/
def pair : List Command :=
  [{ executable := ascii "a", arguments := [ascii "a"] },
    { executable := ascii "b", arguments := [ascii "b"] }]

/-- The first command outlives the second. -/
theorem pipeline_wiring_pair :
    ∃ s, run (step pair) (init pair standard)
        [.pipe true, .fork (some 10) true true, .fork (some 11) true true, .ends 1 (.exited 0),
          .ends 0 (.exited 3), .waitpid, .waitpid] = some s ∧
      s.phase = .returned { exitCode := 0, success := true } ∧ s.table = atEntry standard := by
  have hrun : (run (step pair) (init pair standard)
      [.pipe true, .fork (some 10) true true, .fork (some 11) true true, .ends 1 (.exited 0),
        .ends 0 (.exited 3), .waitpid, .waitpid]).map State.phase =
      some (.returned { exitCode := 0, success := true }) := by decide
  rcases Option.map_eq_some_iff.mp hrun with ⟨s, hs, hphase⟩
  have hwiring := pipeline_wiring (by decide) (by decide) (by decide) hs
  exact ⟨s, hs, hphase, (hwiring.2.2.2.1 _ hphase).1⟩

end Pipeline

end Isolyx
