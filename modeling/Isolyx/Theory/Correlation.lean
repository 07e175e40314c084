import Isolyx.Core.ApiServer
import Isolyx.Theory.Chunking
import Mathlib.Data.List.Nodup

/-!
# Which Request an Event Answers

The reader looks for an id anywhere in the command line of an event. That finds
the right request because of the shape of the two: an id is one run of
hexadecimal digits and dashes, and in `/tmp/job_U.bin` such a run ends at the
underscore and at the dot (`infix_of_separated`). What is left around `U` is
shorter than an id, so the only id in there is `U` itself.

That the request is settled by the time its event is processed depends on the
event loop and on nothing else. The line is written before the request is
registered, so the engine may answer at once; but both happen in one turn, and
the event is taken in another. The invariant says it of the turn (`InTurn`): a
job whose line was written is settled, except in the rest of the very turn that
wrote it.

Settled does not always mean registered. The pipe is closed in between, and if
that fails the handler gives the request up with its line already written. The
job's event then comes without a request (`processed_unregistered`) and answers
none.

## Main definitions

* `Reads`: What the reader makes of a line.
* `Settled`: A request is registered or was abandoned.
* `InTurn`: What holds in the course of a turn.
* `Inv`: What every step preserves.
* `Correlated`: Events answer the requests they belong to.

## Theorems

* `includes_binPath`: The only id in a job's path is the job's.
* `onLine_answers`: An event answers its request and no other.
* `onLine_unmatched`: An event that matches nothing changes nothing.
* `inv_moves`: Every step preserves the invariant.
* `correlated`: In every run, events answer the requests they belong to.
* `processed_unregistered`: An event may come without a request.
-/

namespace Isolyx

namespace ApiServer

open JsonText (Value)
open Reader (includes commandLine matchesUuid findPending onLine isTrimmed)

/-! ## The only id in a path -/

theorem includes_iff (s uuid : List Char) : includes s uuid = true ↔ uuid <:+: s := by
  simp only [includes, List.any_eq_true, List.mem_tails, List.isPrefixOf_iff_prefix,
    List.infix_iff_prefix_suffix, and_comm]

/-- A string that does not contain a character occurs on one side of it. -/
theorem infix_of_separated {α : Type*} {v a b : List α} {c : α} (hc : c ∉ v)
    (h : v <:+: a ++ c :: b) : v <:+: a ∨ v <:+: b := by
  rcases List.infix_append_iff.mp h with h | h | ⟨l₁, l₂, rfl, h₁, h₂⟩
  · exact .inl h
  · rcases List.infix_cons_iff.mp h with h | h
    · cases v with
      | nil => exact .inl List.nil_infix
      | cons x v =>
          rw [List.cons_prefix_cons] at h
          exact absurd (h.1 ▸ List.mem_cons_self) hc
    · exact .inr h
  · cases l₂ with
    | nil =>
        rw [List.append_nil]
        exact .inl h₁.isInfix
    | cons x l₂ =>
        rw [List.cons_prefix_cons] at h₂
        exact absurd (h₂.1 ▸ List.mem_append_right l₁ List.mem_cons_self) hc

/-- The only id in a job's path is the job's. -/
theorem includes_binPath {u v : List Char} (hu : IsJobId u) (hv : IsJobId v) :
    includes (binPath u) v = true ↔ v = u := by
  have hout : ∀ {c : Char}, isIdChar c = false → c ∉ v := by
    intro c hc hmem
    rw [hv.chars c hmem] at hc
    exact Bool.noConfusion hc
  have hhead : "/tmp/job_".toList = "/tmp/job".toList ++ ['_'] := by decide
  have htail : ".bin".toList = '.' :: "bin".toList := by decide
  have hpath : binPath u = "/tmp/job".toList ++ '_' :: (u ++ '.' :: "bin".toList) :=
    calc binPath u = "/tmp/job".toList ++ ['_'] ++ u ++ '.' :: "bin".toList :=
          congrArg₂ (fun a b => a ++ u ++ b) hhead htail
      _ = "/tmp/job".toList ++ '_' :: (u ++ '.' :: "bin".toList) := by
          rw [List.append_assoc, List.append_assoc, List.singleton_append]
  rw [includes_iff]
  constructor
  · intro h
    rw [hpath] at h
    -- an id is longer than what stands before the underscore and after the dot
    rcases infix_of_separated (hout (by decide)) h with h | h
    · have hle := h.length_le
      rw [hv.length] at hle
      exact absurd hle (by decide)
    · rcases infix_of_separated (hout (by decide)) h with h | h
      · exact h.eq_of_length (hv.length.trans hu.length.symm)
      · have hle := h.length_le
        rw [hv.length] at hle
        exact absurd hle (by decide)
  · rintro rfl
    exact List.infix_append ..

/-! ## One line -/

/-- What the reader makes of a line. -/
structure Reads (line : List Char) (event : Value) : Prop where
  kept : line.all isTrimmed = false
  parsed : JsonText.parse line = some event

theorem reads_text (e : Event) : Reads e.text e.value where
  kept := Bool.eq_false_iff.mpr (Reader.not_blank (e.text_head.imp' _ fun _ h => h))
  parsed := by rw [Event.text, JsonText.parse_print]

/-- The event's `command_line` is this string. -/
def HasCommandLine (event : Value) (path : List Char) : Prop :=
  commandLine event = some (some (.string path))

theorem matchesUuid_binPath {event : Value} {u v : List Char} (hu : IsJobId u) (hv : IsJobId v)
    (h : HasCommandLine event (binPath u)) : matchesUuid event v = some (decide (v = u)) := by
  have hne : (binPath u).isEmpty = false := rfl
  rw [matchesUuid, h]
  simp only [hne, Bool.not_false, Bool.true_and, Option.some.injEq]
  rw [Bool.eq_iff_iff, includes_binPath hu hv, decide_eq_true_eq]

theorem findPending_binPath {event : Value} {u : List Char} (hu : IsJobId u)
    (h : HasCommandLine event (binPath u)) {pending : List (List Char)}
    (hids : ∀ v ∈ pending, IsJobId v) :
    findPending event pending = some (if u ∈ pending then some u else none) := by
  induction pending with
  | nil => rfl
  | cons v pending ih =>
      rw [findPending, matchesUuid_binPath hu (hids v List.mem_cons_self) h]
      by_cases hv : v = u
      · subst hv
        simp only [decide_true, List.mem_cons_self, if_true]
      · have hmem : u ∈ v :: pending ↔ u ∈ pending := by
          rw [List.mem_cons]
          exact or_iff_right (Ne.symm hv)
        simp only [hv, decide_false, hmem]
        exact ih fun w hw => hids w (List.mem_cons_of_mem v hw)

/-- An event answers its request and no other. -/
theorem onLine_answers {r : Reader.State} (hids : ∀ v ∈ r.pendingRequests, IsJobId v)
    {u line : List Char} {event : Value} (hu : IsJobId u) (hl : Reads line event)
    (h : HasCommandLine event (binPath u)) :
    (onLine r line).pendingRequests = r.pendingRequests.erase u ∧
      (onLine r line).replies
        = r.replies ++ if u ∈ r.pendingRequests then [(u, event)] else [] := by
  have hkept : ¬ line.all isTrimmed = true := by rw [hl.kept]; exact Bool.false_ne_true
  rw [onLine, if_neg hkept, hl.parsed]
  simp only [findPending_binPath hu h hids]
  by_cases hmem : u ∈ r.pendingRequests
  · simp only [hmem, if_true, and_self]
  · simp only [hmem, if_false, List.erase_of_not_mem, not_false_eq_true, List.append_nil, and_self]

theorem findPending_unmatched {event : Value} {pending : List (List Char)}
    (h : ∀ v ∈ pending, matchesUuid event v ≠ some true) :
    findPending event pending = none ∨ findPending event pending = some none := by
  induction pending with
  | nil => exact .inr rfl
  | cons v pending ih =>
      have hv := h v List.mem_cons_self
      rw [findPending]
      cases hm : matchesUuid event v with
      | none => exact .inl rfl
      | some b =>
          cases b with
          | true => exact absurd hm hv
          | false => exact ih fun w hw => h w (List.mem_cons_of_mem v hw)

/-- An event that matches nothing changes nothing. -/
theorem onLine_unmatched {r : Reader.State} {line : List Char} {event : Value}
    (hl : Reads line event) (h : ∀ v ∈ r.pendingRequests, matchesUuid event v ≠ some true) :
    (onLine r line).pendingRequests = r.pendingRequests ∧ (onLine r line).replies = r.replies := by
  have hkept : ¬ line.all isTrimmed = true := by rw [hl.kept]; exact Bool.false_ne_true
  rw [onLine, if_neg hkept, hl.parsed]
  rcases findPending_unmatched h with hf | hf
  · simp only [hf, and_self]
  · simp only [hf, and_self]

theorem mem_of_findPending {event : Value} {u : List Char} {pending : List (List Char)}
    (h : findPending event pending = some (some u)) : u ∈ pending := by
  induction pending with
  | nil => simp only [findPending, Option.some.injEq, reduceCtorEq] at h
  | cons v pending ih =>
      rw [findPending] at h
      split at h
      · simp only [reduceCtorEq] at h
      · simp only [Option.some.injEq] at h
        exact h ▸ List.mem_cons_self
      · exact List.mem_cons_of_mem v (ih h)

/-- Whatever the line is, the reader answers one pending request or none. -/
theorem onLine_effect (r : Reader.State) (line : List Char) :
    ((onLine r line).pendingRequests = r.pendingRequests ∧
      (onLine r line).replies = r.replies) ∨
    ∃ u event, u ∈ r.pendingRequests ∧
      (onLine r line).pendingRequests = r.pendingRequests.erase u ∧
      (onLine r line).replies = r.replies ++ [(u, event)] := by
  unfold onLine
  split
  · exact .inl ⟨rfl, rfl⟩
  split
  · exact .inl ⟨rfl, rfl⟩
  · rename_i event _
    simp only
    split
    · exact .inl ⟨rfl, rfl⟩
    · exact .inl ⟨rfl, rfl⟩
    · rename_i u hu
      exact .inr ⟨u, event, mem_of_findPending hu, rfl, rfl⟩

/-! ## The invariant -/

/-- The turn that was to register the request has ended: the request is
    registered, or it was abandoned with its line written. -/
def Settled (s : State) (u : List Char) : Prop := u ∈ s.registered ∨ u ∈ s.abandoned

/-- What holds in the course of a turn. -/
def InTurn (s : State) : Turn → Prop
  | .idle => ∀ u ∈ s.submitted, Settled s u
  | .submitting jobId => (IsJobId jobId ∧ jobId ∈ s.made ∧ ¬ Settled s jobId) ∧
      ∀ u ∈ s.submitted, Settled s u
  | .written jobId => (IsJobId jobId ∧ jobId ∈ s.made ∧ ¬ Settled s jobId) ∧
      ∀ u ∈ s.submitted, u = jobId ∨ Settled s u

/-- What every step preserves. -/
structure Inv (s : State) : Prop where
  ids : ∀ u ∈ s.reader.pendingRequests, IsJobId u
  nodup : s.reader.pendingRequests.Nodup
  once : (s.reader.replies.map Prod.fst).Nodup
  answered : ∀ u ∈ s.reader.replies.map Prod.fst, u ∉ s.reader.pendingRequests
  pending : ∀ u ∈ s.reader.pendingRequests, u ∈ s.registered
  replied : ∀ u ∈ s.reader.replies.map Prod.fst, u ∈ s.registered
  made : ∀ u, Settled s u → u ∈ s.made
  abandoned : ∀ u ∈ s.abandoned, u ∉ s.registered
  turn : InTurn s s.turn
  lines : ∀ l ∈ s.lines, ∀ u, l.job = some u → u ∈ s.submitted
  processed : ∀ u ∈ s.processed, Settled s u

theorem inv_init {pending : List (List Char)} (hids : ∀ u ∈ pending, IsJobId u)
    (hnodup : pending.Nodup) : Inv (init pending) where
  ids := hids
  nodup := hnodup
  once := List.nodup_nil
  answered _ h := absurd h List.not_mem_nil
  pending _ h := h
  replied _ h := absurd h List.not_mem_nil
  made _ h := h.resolve_right List.not_mem_nil
  abandoned _ h := absurd h List.not_mem_nil
  turn _ h := absurd h List.not_mem_nil
  lines _ h := absurd h List.not_mem_nil
  processed _ h := absurd h List.not_mem_nil

/-- Registering a request that was never settled. -/
theorem inv_registers {s : State} (hi : Inv s) {jobId : List Char} (ht : s.turn = .written jobId) :
    Inv { s with
      turn := .idle
      reader := Reader.step s.reader (.submit jobId)
      registered := jobId :: s.registered } := by
  have hturn := hi.turn
  rw [ht] at hturn
  rcases hturn with ⟨⟨hid, hmade, hnew⟩, hsubmitted⟩
  have hpending : jobId ∉ s.reader.pendingRequests := fun h => hnew (.inl (hi.pending jobId h))
  have hmem : ∀ u, u ∈ s.reader.pendingRequests ++ [jobId] →
      u ∈ s.reader.pendingRequests ∨ u = jobId := fun u hu =>
    (List.mem_append.mp hu).imp_right List.mem_singleton.mp
  have hsettled : ∀ u, Settled s u → u ∈ jobId :: s.registered ∨ u ∈ s.abandoned := fun u hu =>
    hu.imp_left (List.mem_cons_of_mem _)
  refine ⟨fun u hu => ?_, ?_, hi.once, fun u hu hp => ?_, fun u hu => ?_,
    fun u hu => List.mem_cons_of_mem _ (hi.replied u hu), fun u hu => ?_, fun u hu hr => ?_,
    fun u hu => ?_, hi.lines, fun u hu => hsettled u (hi.processed u hu)⟩
  · rcases hmem u hu with hu | rfl
    · exact hi.ids u hu
    · exact hid
  · exact hi.nodup.append (List.nodup_singleton _) (List.disjoint_singleton.mpr hpending)
  · rcases hmem u hp with hp | rfl
    · exact hi.answered u hu hp
    · exact hnew (.inl (hi.replied u hu))
  · rcases hmem u hu with hu | rfl
    · exact List.mem_cons_of_mem _ (hi.pending u hu)
    · exact List.mem_cons_self
  · rcases hu with hu | hu
    · rcases List.mem_cons.mp hu with rfl | hu
      · exact hmade
      · exact hi.made u (.inl hu)
    · exact hi.made u (.inr hu)
  · rcases List.mem_cons.mp hr with rfl | hr
    · exact hnew (.inr hu)
    · exact hi.abandoned u hu hr
  · rcases hsubmitted u hu with rfl | hu
    · exact .inl List.mem_cons_self
    · exact hsettled u hu

/-- Giving a request up that was never settled, its line written. -/
theorem inv_abandons {s : State} (hi : Inv s) {jobId : List Char} (ht : s.turn = .written jobId) :
    Inv { s with turn := .idle, abandoned := jobId :: s.abandoned } := by
  have hturn := hi.turn
  rw [ht] at hturn
  rcases hturn with ⟨⟨_, hmade, hnew⟩, hsubmitted⟩
  have hsettled : ∀ u, Settled s u → u ∈ s.registered ∨ u ∈ jobId :: s.abandoned := fun u hu =>
    hu.imp_right (List.mem_cons_of_mem _)
  refine { hi with
    made := fun u hu => ?_
    abandoned := fun u hu hr => ?_
    turn := fun u hu => ?_
    processed := fun u hu => hsettled u (hi.processed u hu) }
  · rcases hu with hu | hu
    · exact hi.made u (.inl hu)
    · rcases List.mem_cons.mp hu with rfl | hu
      · exact hmade
      · exact hi.made u (.inr hu)
  · rcases List.mem_cons.mp hu with rfl | hu
    · exact hnew (.inl hr)
    · exact hi.abandoned u hu hr
  · rcases hsubmitted u hu with rfl | hu
    · exact .inr List.mem_cons_self
    · exact hsettled u hu

/-- The reader takes a line in a turn of its own. -/
theorem inv_receives {s : State} (hi : Inv s) {i : Nat} {line : Line} (ht : s.turn = .idle)
    (hl : s.lines[i]? = some line) : Inv { s with
      reader := onLine s.reader line.text
      lines := s.lines.eraseIdx i
      processed := line.job.toList ++ s.processed } := by
  have hturn := hi.turn
  rw [ht] at hturn
  have hline : line ∈ s.lines := List.mem_of_getElem? hl
  have hlines : ∀ l ∈ s.lines.eraseIdx i, ∀ u, l.job = some u → u ∈ s.submitted :=
    fun l hm => hi.lines l (List.mem_of_mem_eraseIdx hm)
  have hprocessed : ∀ u ∈ line.job.toList ++ s.processed, Settled s u := by
    intro u hu
    rcases List.mem_append.mp hu with hu | hu
    · exact hturn u (hi.lines line hline u (Option.mem_toList.mp hu))
    · exact hi.processed u hu
  have hidle : InTurn { s with
      reader := onLine s.reader line.text
      lines := s.lines.eraseIdx i
      processed := line.job.toList ++ s.processed } s.turn := by
    rw [ht]
    exact hturn
  rcases onLine_effect s.reader line.text with ⟨hp, hr⟩ | ⟨u, event, hu, hp, hr⟩
  · refine ⟨?_, ?_, ?_, ?_, ?_, ?_, hi.made, hi.abandoned, hidle, hlines,
      hprocessed⟩
    · exact hp ▸ hi.ids
    · exact hp ▸ hi.nodup
    · exact hr ▸ hi.once
    · simp only [hp, hr]
      exact hi.answered
    · exact hp ▸ hi.pending
    · exact hr ▸ hi.replied
  -- the request answered was pending, so it was not answered before
  · have hsub : ∀ v ∈ s.reader.pendingRequests.erase u, v ∈ s.reader.pendingRequests :=
      fun v hv => List.mem_of_mem_erase hv
    have hkeys : ∀ v, v ∈ (s.reader.replies ++ [(u, event)]).map Prod.fst →
        v ∈ s.reader.replies.map Prod.fst ∨ v = u := by
      intro v hv
      rw [List.map_append, List.mem_append, List.map_singleton, List.mem_singleton] at hv
      exact hv
    refine ⟨?_, ?_, ?_, ?_, ?_, ?_, hi.made, hi.abandoned, hidle, hlines,
      hprocessed⟩
    · simp only [hp]
      exact fun v hv => hi.ids v (hsub v hv)
    · simp only [hp]
      exact hi.nodup.erase u
    · simp only [hr, List.map_append, List.map_singleton]
      exact hi.once.append (List.nodup_singleton _)
        (List.disjoint_singleton.mpr fun h => hi.answered u h hu)
    · simp only [hp, hr]
      intro v hv hv'
      rcases hkeys v hv with hv | rfl
      · exact hi.answered v hv (hsub v hv')
      · exact (hi.nodup.mem_erase_iff.mp hv').1 rfl
    · simp only [hp]
      exact fun v hv => hi.pending v (hsub v hv)
    · simp only [hr]
      intro v hv
      rcases hkeys v hv with hv | rfl
      · exact hi.replied v hv
      · exact hi.pending v hu

theorem inv_moves {s t : State} {a : Action} (hi : Inv s) (h : Moves s a t) : Inv t := by
  have hturn := hi.turn
  cases h with
  | calls jobId ht hid hnew =>
      rw [ht] at hturn
      exact { hi with
        made := fun u hu => List.mem_cons_of_mem _ (hi.made u hu)
        turn := ⟨⟨hid, List.mem_cons_self, fun h => hnew (hi.made jobId h)⟩, hturn⟩ }
  | refuses jobId ht =>
      rw [ht] at hturn
      exact { hi with turn := hturn.2 }
  | writes jobId ht =>
      rw [ht] at hturn
      refine { hi with
        turn := ⟨hturn.1, fun u hu => ?_⟩
        lines := fun l hl u hu => List.mem_cons_of_mem _ (hi.lines l hl u hu) }
      exact (List.mem_cons.mp hu).imp_right (hturn.2 u)
  | abandons jobId ht => exact inv_abandons hi ht
  | registers jobId ht => exact inv_registers hi ht
  | finishes jobId event hjob hline =>
      refine { hi with turn := ?_, lines := fun l hl u hu => ?_ }
      · cases ht : s.turn <;> rw [ht] at hturn <;> exact hturn
      · rcases List.mem_append.mp hl with hl | hl
        · exact hi.lines l hl u hu
        · rw [List.mem_singleton.mp hl] at hu
          exact Option.some.inj hu ▸ hjob
  | comes text =>
      refine { hi with turn := ?_, lines := fun l hl u hu => ?_ }
      · cases ht : s.turn <;> rw [ht] at hturn <;> exact hturn
      · rcases List.mem_append.mp hl with hl | hl
        · exact hi.lines l hl u hu
        · rw [List.mem_singleton.mp hl] at hu
          simp only [reduceCtorEq] at hu
  | receives i line ht hl => exact inv_receives hi ht hl

theorem inv_run {pending : List (List Char)} (hids : ∀ u ∈ pending, IsJobId u)
    (hnodup : pending.Nodup) {actions : List Action} {s : State}
    (h : Lts.run step (init pending) actions = some s) : Inv s :=
  Lts.run_invariant (fun _ _ _ hi hs => inv_moves hi (moves_of_step hs)) (inv_init hids hnodup) h

/-! ## Events and requests -/

/-- Events answer the requests they belong to. -/
structure Correlated (s : State) : Prop where
  /-- The event of a pending request's job answers that request, and takes no
      other one out. -/
  answers : ∀ u line event, IsJobId u → Reads line event → HasCommandLine event (binPath u) →
    u ∈ s.reader.pendingRequests →
      (onLine s.reader line).replies = s.reader.replies ++ [(u, event)] ∧
      ∀ v, v ∈ (onLine s.reader line).pendingRequests ↔ v ∈ s.reader.pendingRequests ∧ v ≠ u
  /-- The event of another job answers none and takes none out. -/
  spares : ∀ u line event, IsJobId u → Reads line event → HasCommandLine event (binPath u) →
    u ∉ s.reader.pendingRequests →
      (onLine s.reader line).replies = s.reader.replies ∧
      (onLine s.reader line).pendingRequests = s.reader.pendingRequests
  /-- Nor does an event that matches no pending request. -/
  unmatched : ∀ line event, Reads line event →
    (∀ v ∈ s.reader.pendingRequests, matchesUuid event v ≠ some true) →
      (onLine s.reader line).replies = s.reader.replies ∧
      (onLine s.reader line).pendingRequests = s.reader.pendingRequests
  /-- No request is answered twice. -/
  once : (s.reader.replies.map Prod.fst).Nodup
  /-- When the reader can take a line, the job it is about is settled. -/
  ready : s.turn = .idle → ∀ l ∈ s.lines, ∀ u, l.job = some u → Settled s u
  processed : ∀ u ∈ s.processed, Settled s u
  /-- A request that was abandoned is never registered and never answered by an
      event. -/
  abandoned : ∀ u ∈ s.abandoned, u ∉ s.registered ∧ u ∉ s.reader.pendingRequests ∧
    u ∉ s.reader.replies.map Prod.fst

/-- In every run from any pending requests, events answer the requests they
    belong to. -/
theorem correlated {pending : List (List Char)} (hids : ∀ u ∈ pending, IsJobId u)
    (hnodup : pending.Nodup) (actions : List Action) {s : State}
    (h : Lts.run step (init pending) actions = some s) : Correlated s where
  answers u line event hu hl hpath hmem := by
    have hi := inv_run hids hnodup h
    rcases onLine_answers hi.ids hu hl hpath with ⟨hp, hr⟩
    rw [if_pos hmem] at hr
    refine ⟨hr, fun v => ?_⟩
    rw [hp, hi.nodup.mem_erase_iff, and_comm]
  spares u line event hu hl hpath hmem := by
    rcases onLine_answers (inv_run hids hnodup h).ids hu hl hpath with ⟨hp, hr⟩
    rw [if_neg hmem, List.append_nil] at hr
    exact ⟨hr, hp.trans (List.erase_of_not_mem hmem)⟩
  unmatched line event hl hno := (onLine_unmatched hl hno).symm
  once := (inv_run hids hnodup h).once
  ready hidle l hl u hu := by
    have hi := inv_run hids hnodup h
    have hturn := hi.turn
    rw [hidle] at hturn
    exact hturn u (hi.lines l hl u hu)
  processed := (inv_run hids hnodup h).processed
  abandoned u hu := by
    have hi := inv_run hids hnodup h
    have hnew := hi.abandoned u hu
    exact ⟨hnew, fun hp => hnew (hi.pending u hp), fun hr => hnew (hi.replied u hr)⟩

/-- The id of a request. -/
def firstId : List Char := "00000000-0000-4000-8000-000000000001".toList

def secondId : List Char := "00000000-0000-4000-8000-000000000002".toList

/-- The event of its job. -/
def firstEvent : Event := { Event.quiet with commandLine := binPath firstId }

/-- While one request is pending another one comes, and its job is done before
    it is registered. Its event answers it. -/
theorem correlated_two : ∃ s : State, s.reader.pendingRequests = [secondId, firstId] ∧
    Correlated s ∧ (onLine s.reader firstEvent.text).replies = [(firstId, firstEvent.value)] := by
  have hids : ∀ u ∈ [secondId], IsJobId u := by
    intro u hu
    rw [List.mem_singleton.mp hu]
    decide
  have hcorrelated := correlated hids (List.nodup_singleton _)
    [.call firstId, .write, .finish firstId firstEvent, .register] rfl
  refine ⟨_, rfl, hcorrelated, ?_⟩
  exact (hcorrelated.answers firstId firstEvent.text firstEvent.value (by decide)
    (reads_text firstEvent) rfl (by decide)).1

/-- The pipe cannot be closed after the line was written, and the job's event is
    processed although the request never was registered. -/
theorem processed_unregistered : ¬ ∀ (pending : List (List Char)) (actions : List Action)
    (s : State), (∀ u ∈ pending, IsJobId u) → pending.Nodup →
      Lts.run step (init pending) actions = some s → ∀ u ∈ s.processed, u ∈ s.registered := by
  intro h
  have hregistered := h [] [.call firstId, .write, .finish firstId firstEvent, .closeFails,
    .receive 0] _ (fun _ hu => absurd hu List.not_mem_nil) List.nodup_nil rfl firstId
    List.mem_cons_self
  exact absurd hregistered List.not_mem_nil

end ApiServer

end Isolyx
