import Isolyx.Core.Intake
import Mathlib.Data.List.TakeWhile

/-!
# Exactly-Once Intake

Whether every line a submitter wrote becomes one job. In a state where nothing
was lost, the lines written fall into two parts: the earlier ones were
enqueued, one job each and in order, and the bytes of the later ones are what
the daemon has read ahead and what is still queued (`Intact`).

The only steps that can lose a line are those that close a descriptor. They do
so exactly when nothing else is open and something is queued (`Complies`). The
daemon closes after every end of file, so a submitter that opens, writes and
closes between the two is lost; and a submitter that writes while the daemon
is about to close, and closes before the daemon is back, is lost as well.

## Main definitions

* `Wf`: The FIFO counts the daemon's descriptor.
* `Intact`: No written line was lost, duplicated or reordered.
* `Complies`: The step closes nothing that holds a queue alone.

## Theorems

* `wf_moves`: Every step keeps the daemon's descriptor counted.
* `processLine_job`: A job line is enqueued as one job.
* `intact_moves`: A step loses nothing exactly when it complies.
* `intact_iff_complies`: A run loses nothing exactly when all its steps comply.
* `line_lost_at_close`: A line written between end of file and closing is lost.
-/

namespace Isolyx

namespace Intake

open CommandLine (JobLine parseJob parseJob_nil newline)

variable {n : Nat} {lines : Fin n → JobLine}

/-- The descriptors the daemon holds, an unfinished `open` included. -/
def Daemon.descriptors : Daemon → Nat
  | .closed => 0
  | _ => 1

/-- What the daemon has read ahead. -/
def Daemon.hand : Daemon → Bytes
  | .reading hand => hand
  | .closed | .opening _ | .ended => []

/-- The FIFO counts the daemon's descriptor. -/
def Wf (s : State n) : Prop := s.fifo.readers = s.daemon.descriptors

/-- The lines written are those enqueued, one job each, and those whose bytes
    the daemon has read ahead or are still queued. -/
def Intact (s : State n) : Prop :=
  ∃ done left : List JobLine, s.written = done ++ left ∧
    s.enqueued.map some = done.map (fun l => parseJob l.text) ∧
    s.daemon.hand ++ s.fifo.buffer = left.flatMap JobLine.bytes

/-- The step closes no descriptor that is the last one while something is
    queued. -/
def Complies (s : State n) : Action n → Prop
  | .closePipe _ => 0 < s.fifo.readers ∨ 1 < s.fifo.writers ∨ s.fifo.buffer = []
  | .daemonCloses => 0 < s.fifo.writers ∨ s.fifo.buffer = []
  | _ => True

/-! ## Lines -/

@[simp]
theorem processLine_fifo (s : State n) (text : Bytes) : (processLine s text).fifo = s.fifo := by
  unfold processLine
  split
  · rfl
  · split <;> rfl

@[simp]
theorem processLine_daemon (s : State n) (text : Bytes) :
    (processLine s text).daemon = s.daemon := by
  unfold processLine
  split
  · rfl
  · split <;> rfl

@[simp]
theorem processLine_written (s : State n) (text : Bytes) :
    (processLine s text).written = s.written := by
  unfold processLine
  split
  · rfl
  · split <;> rfl

/-- A job line is enqueued as one job. -/
theorem processLine_job (s : State n) (l : JobLine) :
    ∃ cmd, parseJob l.text = some cmd ∧
      (processLine s l.text).enqueued = s.enqueued ++ [cmd] := by
  rcases Option.isSome_iff_exists.mp l.wellFormed with ⟨cmd, hcmd⟩
  refine ⟨cmd, hcmd, ?_⟩
  have hne : ¬ l.text.isEmpty = true := fun h => by
    rw [List.isEmpty_iff.mp h, parseJob_nil] at hcmd
    exact absurd hcmd (by simp only [reduceCtorEq, not_false_eq_true])
  rw [processLine, if_neg hne, hcmd]

/-- Cutting at the first newline. -/
theorem takeWhile_newline {hand : Bytes} (hline : newline ∈ hand) :
    hand = hand.takeWhile (· != newline) ++
      newline :: hand.drop ((hand.takeWhile (· != newline)).length + 1) := by
  induction hand with
  | nil => exact absurd hline List.not_mem_nil
  | cons b hand ih =>
      by_cases hb : b = newline
      · subst hb
        simp only [List.takeWhile_cons, bne_self_eq_false, Bool.false_eq_true, if_false,
          List.nil_append, List.length_nil, Nat.zero_add, List.drop_succ_cons, List.drop_zero]
      · have htail : newline ∈ hand := (List.mem_cons.mp hline).resolve_left (Ne.symm hb)
        rw [List.takeWhile_cons, if_pos (bne_iff_ne.mpr hb), List.length_cons,
          List.drop_succ_cons, List.cons_append, ← ih htail]

/-- What stands before a newline ends at the first one. -/
theorem takeWhile_line {text : Bytes} (htext : newline ∉ text) (rest : Bytes) :
    (text ++ newline :: rest).takeWhile (· != newline) = text := by
  have hpos : ∀ b ∈ text, (b != newline) = true := by
    intro b hb
    exact bne_iff_ne.mpr fun heq => htext (heq ▸ hb)
  rw [List.takeWhile_append_of_pos hpos]
  simp only [List.takeWhile_cons, bne_self_eq_false, Bool.false_eq_true, if_false, List.append_nil]

theorem newline_notMem_takeWhile (hand : Bytes) : newline ∉ hand.takeWhile (· != newline) := by
  intro h
  have hne : (newline != newline) = true := List.mem_takeWhile_imp (p := (· != newline)) h
  exact bne_iff_ne.mp hne rfl

/-- Bytes of whole lines that hold a newline start with a whole line. -/
theorem first_line {hand buffer : Bytes} {left : List JobLine} (hline : newline ∈ hand)
    (h : hand ++ buffer = left.flatMap JobLine.bytes) :
    ∃ l rest, left = l :: rest ∧ hand.takeWhile (· != newline) = l.text ∧
      hand.drop (l.text.length + 1) ++ buffer = rest.flatMap JobLine.bytes := by
  cases left with
  | nil =>
      rw [List.flatMap_nil, List.append_eq_nil_iff] at h
      exact absurd hline (h.1 ▸ List.not_mem_nil)
  | cons l rest =>
      rw [List.flatMap_cons, JobLine.bytes, List.append_assoc, List.singleton_append] at h
      -- the first newline of both sides ends the text of the line
      have htext : hand.takeWhile (· != newline) = l.text := by
        rw [← takeWhile_line l.oneLine (rest.flatMap JobLine.bytes), ← h]
        nth_rewrite 2 [takeWhile_newline hline]
        rw [List.append_assoc, List.cons_append, takeWhile_line (newline_notMem_takeWhile hand)]
      rw [takeWhile_newline hline, htext, List.append_assoc, List.cons_append] at h
      exact ⟨l, rest, rfl, htext, List.cons.inj (List.append_cancel_left h) |>.2⟩

/-- Bytes of whole lines without a newline are no lines. -/
theorem no_line {hand : Bytes} {left : List JobLine} (hline : newline ∉ hand)
    (h : hand = left.flatMap JobLine.bytes) : left = [] := by
  cases left with
  | nil => rfl
  | cons l rest =>
      refine absurd ?_ hline
      rw [h, List.flatMap_cons, JobLine.bytes]
      exact List.mem_append_left _ (List.mem_append_right _ List.mem_cons_self)

/-! ## Steps -/

/-- Every step keeps the daemon's descriptor counted. -/
theorem wf_moves {s t : State n} {a : Action n} (hs : Wf s) (h : Moves lines s a t) : Wf t := by
  unfold Wf at hs ⊢
  cases h with
  | openPipe i hi =>
      rw [Fifo.openWrite, hs]
      cases s.daemon <;> rfl
  | closePipe i hi => exact (Fifo.closeWrite_readers _).trans hs
  | daemonOpens hd =>
      rw [hd] at hs
      exact congrArg (· + 1) hs
  | daemonOpened hd =>
      rw [hd] at hs
      exact hs
  | readsAhead k hand hd hk =>
      rw [hd] at hs
      exact hs
  | getsLine hand hd hline =>
      rw [hd] at hs
      rw [processLine_fifo, processLine_daemon]
      exact hs
  | readsEof hand hd heof =>
      rw [hd] at hs
      rw [processLine_fifo, processLine_daemon]
      exact hs
  | daemonCloses hd =>
      rw [hd] at hs
      simp only [Fifo.closeRead_readers, hs, Daemon.descriptors, Nat.sub_self]
  | _ => exact hs

/-- Lines and jobs fix what is still to come. -/
theorem pending_unique {s t : State n} (hs : Intact s) (ht : Intact t)
    (hwritten : t.written = s.written) (henqueued : t.enqueued = s.enqueued) :
    t.daemon.hand ++ t.fifo.buffer = s.daemon.hand ++ s.fifo.buffer := by
  rcases hs with ⟨done, left, hsplit, hjobs, hpending⟩
  rcases ht with ⟨done', left', hsplit', hjobs', hpending'⟩
  have hlen : done.length = done'.length := by
    have h := congrArg List.length hjobs
    have h' := congrArg List.length hjobs'
    rw [List.length_map, List.length_map] at h h'
    rw [← h, ← h', henqueued]
  have hsame : done ++ left = done' ++ left' := by rw [← hsplit, ← hsplit', hwritten]
  rw [hpending, hpending', (List.append_inj hsame hlen).2]

theorem Intact.congr {s t : State n} (hs : Intact s) (hwritten : t.written = s.written)
    (henqueued : t.enqueued = s.enqueued)
    (hpending : t.daemon.hand ++ t.fifo.buffer = s.daemon.hand ++ s.fifo.buffer) : Intact t := by
  rcases hs with ⟨done, left, hsplit, hjobs, hbytes⟩
  exact ⟨done, left, hwritten.trans hsplit, by rw [henqueued, hjobs], hpending.trans hbytes⟩

/-- A step loses nothing exactly when it complies. -/
theorem intact_moves {s t : State n} {a : Action n} (hw : Wf s) (hs : Intact s)
    (h : Moves lines s a t) : Intact t ↔ Complies s a := by
  cases h with
  | openPipe i hi =>
      refine iff_of_true (hs.congr rfl rfl ?_) trivial
      cases hd : s.daemon <;> rfl
  | pipeOpened i hi => exact iff_of_true (hs.congr rfl rfl rfl) trivial
  | writeFails i hi hr => exact iff_of_true (hs.congr rfl rfl rfl) trivial
  | writes i hi hr =>
      refine iff_of_true ?_ trivial
      rcases hs with ⟨done, left, hsplit, hjobs, hpending⟩
      refine ⟨done, left ++ [lines i], ?_, hjobs, ?_⟩
      · change s.written ++ [lines i] = _
        rw [hsplit, List.append_assoc]
      · change s.daemon.hand ++ (s.fifo.buffer ++ (lines i).bytes) = _
        rw [← List.append_assoc, hpending, List.flatMap_append, List.flatMap_singleton]
  | closePipe i hi =>
      refine Iff.trans ⟨fun ht => ?_, fun hkept => ?_⟩ (Fifo.closeWrite_buffer_iff s.fifo)
      · exact List.append_cancel_left (pending_unique hs ht rfl rfl)
      · exact hs.congr rfl rfl (congrArg (s.daemon.hand ++ ·) hkept)
  | daemonOpens hd =>
      refine iff_of_true (hs.congr rfl rfl ?_) trivial
      rw [hd]
      rfl
  | daemonOpened hd =>
      refine iff_of_true (hs.congr rfl rfl ?_) trivial
      rw [hd]
      rfl
  | readsAhead k hand hd hk =>
      refine iff_of_true (hs.congr rfl rfl ?_) trivial
      rw [hd]
      change (hand ++ s.fifo.buffer.take k) ++ s.fifo.buffer.drop k = hand ++ s.fifo.buffer
      rw [List.append_assoc, List.take_append_drop]
  | getsLine hand hd hline =>
      refine iff_of_true ?_ trivial
      rcases hs with ⟨done, left, hsplit, hjobs, hpending⟩
      rw [hd] at hpending
      rcases first_line hline hpending with ⟨l, rest, rfl, htext, hrest⟩
      rw [htext]
      rcases processLine_job { s with daemon := .reading (hand.drop (l.text.length + 1)) } l with
        ⟨cmd, hcmd, henqueued⟩
      refine ⟨done ++ [l], rest, ?_, ?_, ?_⟩
      · rw [processLine_written, List.append_assoc, List.singleton_append]
        exact hsplit
      · rw [henqueued, List.map_append, List.map_append, hjobs, List.map_singleton,
          List.map_singleton, hcmd]
      · rw [processLine_daemon, processLine_fifo]
        exact hrest
  | readsEof hand hd heof =>
      refine iff_of_true ?_ trivial
      have hnil : s.fifo.buffer = [] := by
        have hempty := (Bool.and_eq_true_iff.mp heof.2).1
        exact List.isEmpty_iff.mp hempty
      rcases hs with ⟨done, left, hsplit, hjobs, hpending⟩
      rw [hd, hnil, List.append_nil] at hpending
      -- nothing was left unfinished in the hand
      have hleft := no_line heof.1 hpending
      subst hleft
      have hhand : hand = [] := hpending
      subst hhand
      exact ⟨done, [], hsplit, hjobs, hnil⟩
  | daemonCloses hd =>
      have hone : s.fifo.readers = 1 := by rw [hw, hd]; rfl
      have hclose : 0 < s.fifo.writers ∨ s.fifo.buffer = [] ↔
          s.fifo.closeRead.buffer = s.fifo.buffer := by
        rw [Fifo.closeRead_buffer_iff, hone]
        exact ⟨Or.inr, fun h => h.resolve_left (Nat.lt_irrefl 1)⟩
      refine Iff.trans ⟨fun ht => ?_, fun hkept => ?_⟩ hclose.symm
      · have hpending := pending_unique hs ht rfl rfl
        rw [hd] at hpending
        exact hpending
      · refine hs.congr rfl rfl ?_
        rw [hd]
        exact hkept

/-! ## Runs -/

theorem wf_init : Wf (init n) := rfl

theorem intact_init : Intact (init n) := ⟨[], [], rfl, rfl, rfl⟩

/-- For any number of submitters, each with its job line, and every
    interleaving with the daemon: no written line is ever lost, duplicated or
    reordered if and only if no step closes the last descriptor while something
    is queued. -/
theorem intact_iff_complies (n : Nat) (lines : Fin n → JobLine) (as : List (Action n)) :
    Lts.Always (step lines) Intact (init n) as ↔ Lts.Along (step lines) Complies (init n) as :=
  Lts.always_iff_along (fun _ _ _ hw _ h => wf_moves hw (moves_of_step h))
    (fun _ _ _ hw hs h => intact_moves hw hs (moves_of_step h)) as wf_init intact_init

/-- The job line of a program without arguments. -/
def exampleLine : JobLine where
  text := ascii "\x7b\"executable\":\"/a\"\x7d"
  oneLine := by decide
  wellFormed := by decide +kernel

/-- The first submitter is served up to end of file; the second comes and goes
    before the daemon closes. -/
def lateSubmitter : List (Action 2) :=
  [.daemonOpens, .openPipe 0, .daemonOpened, .pipeOpened 0, .writeLine 0, .closePipe 0,
    .readAhead 20, .getLine, .readEof, .openPipe 1, .pipeOpened 1, .writeLine 1, .closePipe 1,
    .daemonCloses]

/-- What is left of two lines when the second submitter was late. -/
theorem run_lateSubmitter : (Lts.run (step fun _ => exampleLine) (init 2) lateSubmitter).map
    (fun t => (t.written.length, t.enqueued.length, t.daemon.hand ++ t.fifo.buffer)) =
      some (2, 1, []) := by
  decide +kernel

/-- A line written between end of file and closing is lost. -/
theorem line_lost_at_close : ¬ ∀ (n : Nat) (lines : Fin n → JobLine) (as : List (Action n)),
    Lts.Always (step lines) Intact (init n) as := by
  intro hall
  -- Two lines were written, one job enqueued, and neither hand nor FIFO holds a byte.
  rcases Option.map_eq_some_iff.mp run_lateSubmitter with ⟨t, hrun, hleft⟩
  simp only [Prod.mk.injEq] at hleft
  rcases Lts.always_end (hall 2 _ _) hrun with ⟨done, left, hsplit, hjobs, hpending⟩
  -- nothing is pending, so every line would be a job, and there is one job only
  have hnone : left = [] := no_line List.not_mem_nil (hleft.2.2.symm.trans hpending)
  have hlines := congrArg List.length hsplit
  have hcount := congrArg List.length hjobs
  rw [hnone, List.append_nil] at hlines
  rw [List.length_map, List.length_map] at hcount
  omega

end Intake

end Isolyx
