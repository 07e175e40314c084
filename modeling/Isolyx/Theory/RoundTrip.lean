import Isolyx.Core.Portal
import Isolyx.Theory.Correlation
import Isolyx.Theory.ExactlyOnce
import Isolyx.Theory.RemoteJobs
import Isolyx.Theory.Serialization
import Isolyx.Theory.Submission

/-!
# From a Request to Its Answer

What becomes of a request, through both programs. Its id is in the name of an
executable, the name is in a line of the command pipe, the command of that line
is in a job, the job's result has the name again, and so has the text of its
event, where the reader finds the id. Each of these is another encoding of the
id, and each can be undone (`parseJob_jobText`, `requestOf_eq_some`).

The two programs keep their own invariants. What has to be shown about both
together is that nothing on the way from one to the other is doubled: a line
that was written is in the pipe or has become a job, once (`PipeInv.once`).
With what the pool does exactly once, and what the reader does, it follows that
no request is answered twice, that its answer is what its own program came to,
and that a request without an answer is at a known place (`round_trip`): nothing
disappears but a line or an event that was lost on its pipe.

All that is as long as the jobs from elsewhere name no job id (`unrelated`). The
reader looks for an id anywhere in the name of an executable, so another job
could answer a request with its own event.

## Main definitions

* `cmdOf`: The command of a request.
* `PoolInv`: What the pool keeps, with the results shown.
* `PipeInv`: What holds of the command pipe.
* `ServerInv`: What the server keeps, with the events on their way.
* `unrelated`: A job that is no request's names no job id.
* `RoundTrip`: Requests and their answers.

## Theorems

* `parseJob_jobText`: The daemon reads the command that the handler wrote.
* `requestOf_eq_some`: An executable's name says whose it is.
* `serverInv_receives`: The reader takes an event.
* `poolInv_of_moves`: The pool keeps its own, whatever the other jobs are.
* `inv_moves`: Every step preserves the invariants.
* `round_trip`: Every request is answered once, with its own result.
-/

namespace Isolyx

namespace Portal

open ApiServer (IsJobId Line Turn binPath HasCommandLine onLine_answers onLine_unmatched reads_text)
open CommandLine (parseJob)
open Pool (Worker setWorker)

variable {n : Nat} {sched : Scheduler}

/-! ## Names -/

theorem binPath_injective {u v : List Char} (h : binPath u = binPath v) : u = v :=
  List.append_cancel_left (List.append_cancel_right h)

theorem requestOf_eq_some {executable : Bytes} {u : List Char} :
    requestOf executable = some u ↔ IsJobId u ∧ executable = Utf8.encode (binPath u) := by
  rw [requestOf, Option.bind_eq_some_iff]
  constructor
  · rintro ⟨path, hpath, h⟩
    simp only [Option.ite_none_right_eq_some, Option.some.injEq] at h
    rcases h with ⟨⟨hid, heq⟩, rfl⟩
    exact ⟨hid, by rw [← heq, Utf8.decode_eq_some.mp hpath]⟩
  · rintro ⟨hid, rfl⟩
    have hname : ((binPath u).drop 9).take 36 = u := by
      have hdrop : (binPath u).drop 9 = u ++ ".bin".toList := rfl
      rw [hdrop, ← hid.length, List.take_left]
    refine ⟨binPath u, Utf8.decode_encode _, ?_⟩
    simp only [hname, hid, and_self, if_true]

theorem not_infix_of_namesNoId {path u : List Char}
    (h : namesNoId (Utf8.encode path) = true) (hu : IsJobId u) : ¬ u <:+: path := by
  rintro ⟨a, b, hab⟩
  simp only [namesNoId, Utf8.decode_encode, List.all_eq_true, List.mem_tails] at h
  have hsuffix : u ++ b <:+ path := ⟨a, by rw [← hab, List.append_assoc]⟩
  have hno := h (u ++ b) hsuffix
  rw [← hu.length, List.take_left] at hno
  simp only [hu, decide_true, Bool.not_true, Bool.false_eq_true] at hno

theorem requestOf_of_namesNoId {executable : Bytes} (h : namesNoId executable = true) :
    requestOf executable = none := by
  refine Option.eq_none_iff_forall_ne_some.mpr fun u hu => ?_
  rcases requestOf_eq_some.mp hu with ⟨hid, rfl⟩
  exact not_infix_of_namesNoId h hid (List.infix_append ..)

/-- The command of a request. -/
def cmdOf (jobId : List Char) : Command where
  executable := Utf8.encode (binPath jobId)
  isBackground := true

theorem cmdOf_injective {u v : List Char} (h : cmdOf u = cmdOf v) : u = v :=
  binPath_injective (Utf8.encode_injective (congrArg Command.executable h))

/-- The daemon reads the command that the handler wrote. -/
theorem parseJob_jobText (u : List Char) : parseJob (jobText u) = some (cmdOf u) := by
  have htext : jobText u = Utf8.encode (JsonText.print (Invocation.jobValue (binPath u) [])) := rfl
  rw [parseJob, htext, Invocation.parseText_jobValue, Option.bind_some,
    Invocation.commandOf_jobValue]
  rfl

theorem jobText_injective {u v : List Char} (h : jobText u = jobText v) : u = v := by
  have hcmd := congrArg parseJob h
  rw [parseJob_jobText, parseJob_jobText] at hcmd
  exact cmdOf_injective (Option.some.inj hcmd)

/-! ## The pool -/

/-- What a worker has finished was final. -/
theorem final_moves {p q : Pool.State n} {a : Pool.Action n}
    (hp : ∀ w job res, p.workers w = .finished job res → res.preempted = false)
    (h : Pool.Moves sched p a q) :
    ∀ w job res, q.workers w = .finished job res → res.preempted = false := by
  have hset : ∀ {p' : Pool.State n} {w : Fin n} {v : Worker}, p'.workers = p.workers →
      (∀ job res, v = .finished job res → res.preempted = false) →
      ∀ x job res, (setWorker p' w v).workers x = .finished job res → res.preempted = false := by
    intro p' w v hworkers hv x job res hx
    rw [Pool.workers_setWorker] at hx
    split at hx
    · exact hv job res hx
    · exact hp x job res (hworkers ▸ hx)
  cases h with
  | enqueues sub wake ws hnew hwake =>
      intro w job res hw
      rw [Pool.notifyOne_eq hwake (by simp only [ne_eq, reduceCtorEq, not_false_eq_true])
        (by simp only [ne_eq, reduceCtorEq, not_false_eq_true])] at hw
      exact hp w job res hw
  | requeues w job wake ws hw hwake =>
      intro x job res hx
      rw [Pool.notifyOne_eq hwake (by simp only [ne_eq, reduceCtorEq, not_false_eq_true])
        (by simp only [ne_eq, reduceCtorEq, not_false_eq_true])] at hx
      exact hset rfl (fun _ _ hv => by simp only [reduceCtorEq] at hv) x job res hx
  | finishes w job res pid uniqueId hw hfinal =>
      refine hset rfl fun j r hv => ?_
      rw [Worker.finished.injEq] at hv
      exact hv.2 ▸ hfinal
  | stops hs =>
      intro w job res hw
      rw [Pool.notifyAll_eq _ (by simp only [ne_eq, reduceCtorEq, not_false_eq_true])
        (by simp only [ne_eq, reduceCtorEq, not_false_eq_true])] at hw
      exact hp w job res hw
  | clears | joins => exact hp
  | _ => exact hset rfl fun _ _ hv => by simp only [reduceCtorEq] at hv

theorem submissions_moves {p q : Pool.State n} {a : Pool.Action n} (h : Pool.Moves sched p a q)
    (ha : ∀ w, a ≠ .callSubmitResult w) : q.submissions = p.submissions := by
  cases h with
  | files w => exact absurd rfl (ha w)
  | _ => rfl

/-- What the pool keeps, with the results the observer was shown. -/
structure PoolInv (p : Pool.State n) (results : List (JobResult × Bool)) : Prop where
  inv : Pool.Inv p
  named : Pool.Holds (Pool.Accepted p.accepted) p
  final : ∀ w job res, p.workers w = .finished job res → res.preempted = false
  filed : results.map (fun r => r.1.jobId) = p.submissions
  genuine : ∀ r ∈ results, ∃ a ∈ p.accepted, ∃ res, res.preempted = false ∧ r.1 = jobResult a res

theorem poolInv_moves {p q : Pool.State n} {a : Pool.Action n} {results : List (JobResult × Bool)}
    (hi : PoolInv p results) (h : Pool.Moves sched p a q) (ha : ∀ w, a ≠ .callSubmitResult w) :
    PoolInv q results where
  inv := Pool.inv_moves hi.inv h
  named := Pool.named_moves hi.named h
  final := final_moves hi.final h
  filed := hi.filed.trans (submissions_moves h ha).symm
  genuine r hr := by
    rcases hi.genuine r hr with ⟨a, ha, hres⟩
    exact ⟨a, Pool.accepted_mono h a ha, hres⟩

/-- The result of a job has the id and the name that the job was accepted with. -/
theorem result_of_finished {p : Pool.State n} {results : List (JobResult × Bool)}
    (hi : PoolInv p results) {w : Fin n} {job : Job} {res : ExecutionResult}
    (hw : p.workers w = .finished job res) :
    ∃ a ∈ p.accepted, res.preempted = false ∧ jobResult job res = jobResult a res := by
  rcases hi.named.inHands w job (by rw [hw]; rfl) with ⟨a, ha, hid, hcmd⟩
  refine ⟨a, ha, hi.final w job res hw, ?_⟩
  rw [jobResult, jobResult, hid, hcmd]

theorem poolInv_shows {p q : Pool.State n} {results : List (JobResult × Bool)}
    (hi : PoolInv p results) {w : Fin n} {job : Job} {res : ExecutionResult}
    (hw : p.workers w = .finished job res) (h : Pool.Moves sched p (.callSubmitResult w) q)
    (delivered : Bool) : PoolInv q ((jobResult job res, delivered) :: results) where
  inv := Pool.inv_moves hi.inv h
  named := Pool.named_moves hi.named h
  final := final_moves hi.final h
  filed := by
    cases h with
    | files _ job' res' hw' =>
        have hsame := hw.symm.trans hw'
        rw [Worker.finished.injEq] at hsame
        rw [List.map_cons, hi.filed, ← hsame.1]
        rfl
  genuine r hr := by
    rcases List.mem_cons.mp hr with rfl | hr
    · rcases result_of_finished hi hw with ⟨a, ha, hfinal, heq⟩
      exact ⟨a, Pool.accepted_mono h a ha, res, hfinal, heq⟩
    · rcases hi.genuine r hr with ⟨a, ha, hres⟩
      exact ⟨a, Pool.accepted_mono h a ha, hres⟩

/-! ## The command pipe -/

/-- What holds of the command pipe: the requests whose lines were written, the
    lines lost or still in it, and the jobs that came out. -/
structure PipeInv (submitted lost : List (List Char)) (commands : List Bytes)
    (accepted : List Job) : Prop where
  ids : ∀ u ∈ submitted, IsJobId u
  nodup : submitted.Nodup
  lines : ∀ line ∈ commands, ∃ u ∈ submitted, line = jobText u
  jobs : ∀ a ∈ accepted, (∃ u ∈ submitted, a.cmd = cmdOf u) ∨ namesNoId a.cmd.executable = true
  /-- A line is lost, in the pipe, or has become a job. -/
  once : ∀ u, IsJobId u → lost.count u + commands.count (jobText u)
    + accepted.countP (fun a => a.cmd = cmdOf u) = submitted.count u

variable {submitted lost : List (List Char)} {commands rest : List Bytes} {accepted : List Job}

theorem pipeInv_writes (hi : PipeInv submitted lost commands accepted) {u : List Char}
    (hid : IsJobId u) (hnew : u ∉ submitted) (delivered : Bool) :
    PipeInv (u :: submitted) (if delivered then lost else u :: lost)
      (if delivered then commands ++ [jobText u] else commands) accepted where
  ids v hv := by
    rcases List.mem_cons.mp hv with rfl | hv
    · exact hid
    · exact hi.ids v hv
  nodup := List.nodup_cons.mpr ⟨hnew, hi.nodup⟩
  lines line hline := by
    have hcases : line ∈ commands ∨ line = jobText u := by
      cases delivered with
      | true => exact (List.mem_append.mp hline).imp_right List.mem_singleton.mp
      | false => exact .inl hline
    rcases hcases with hline | rfl
    · rcases hi.lines line hline with ⟨v, hv, heq⟩
      exact ⟨v, List.mem_cons_of_mem _ hv, heq⟩
    · exact ⟨u, List.mem_cons_self, rfl⟩
  jobs a ha := (hi.jobs a ha).imp_left fun ⟨v, hv, hcmd⟩ => ⟨v, List.mem_cons_of_mem _ hv, hcmd⟩
  once v hv := by
    have honce := hi.once v hv
    have htext : jobText u = jobText v ↔ u = v := ⟨jobText_injective, congrArg jobText⟩
    cases delivered with
    | true =>
        simp only [if_true, List.count_append, List.count_cons, List.count_nil, beq_iff_eq, htext]
        omega
    | false =>
        simp only [Bool.false_eq_true, if_false, List.count_cons, beq_iff_eq]
        omega

/-- The daemon takes a line, and it is the command of the request. -/
theorem pipeInv_takes {line : Bytes} {cmd : Command} {job : Job}
    (hi : PipeInv submitted lost (line :: rest) accepted) (hp : parseJob line = some cmd)
    (hjob : job.cmd = cmd) : PipeInv submitted lost rest (accepted ++ [job]) := by
  rcases hi.lines line List.mem_cons_self with ⟨u, hu, rfl⟩
  rw [parseJob_jobText, Option.some.injEq] at hp
  have hcmd : job.cmd = cmdOf u := hjob.trans hp.symm
  refine ⟨hi.ids, hi.nodup, fun line hline => hi.lines line (List.mem_cons_of_mem _ hline),
    fun a ha => ?_, fun v hv => ?_⟩
  · rcases List.mem_append.mp ha with ha | ha
    · exact hi.jobs a ha
    · rw [List.mem_singleton.mp ha]
      exact .inl ⟨u, hu, hcmd⟩
  · have honce := hi.once v hv
    have htext : jobText u = jobText v ↔ u = v := ⟨jobText_injective, congrArg jobText⟩
    have hname : cmdOf u = cmdOf v ↔ u = v := ⟨cmdOf_injective, congrArg cmdOf⟩
    simp only [List.count_cons, beq_iff_eq, htext] at honce
    simp only [List.countP_append, List.countP_singleton, hcmd, decide_eq_true_eq, hname]
    omega

/-- A job that is no request's comes in between. -/
theorem pipeInv_submits {job : Job} (hi : PipeInv submitted lost commands accepted)
    (hid : namesNoId job.cmd.executable = true) :
    PipeInv submitted lost commands (accepted ++ [job]) where
  ids := hi.ids
  nodup := hi.nodup
  lines := hi.lines
  jobs a ha := by
    rcases List.mem_append.mp ha with ha | ha
    · exact hi.jobs a ha
    · rw [List.mem_singleton.mp ha]
      exact .inr hid
  once v hv := by
    have hne : job.cmd ≠ cmdOf v := by
      intro h
      rw [h] at hid
      exact not_infix_of_namesNoId hid hv (List.infix_append ..)
    simp only [List.countP_append, List.countP_singleton, hne, decide_false, Bool.false_eq_true,
      if_false, Nat.add_zero]
    exact hi.once v hv

/-! ## The server -/

/-- What the server keeps, with the events on their way to it. -/
structure ServerInv (v : ApiServer.State) (results : List (JobResult × Bool)) : Prop where
  inv : ApiServer.Inv v
  written : ∀ u, v.turn = .written u → u ∈ v.submitted
  lines : ∀ l ∈ v.lines, ∃ e : Event, (e.result, true) ∈ results ∧ l.text = e.text ∧
    l.job = requestOf e.result.commandLine ∧
    (l.job = none → namesNoId e.result.commandLine = true)
  /-- An event that was written is on its way, or was processed. -/
  arrived : ∀ r u, (r, true) ∈ results → requestOf r.commandLine = some u →
    u ∈ v.processed ∨ ∃ l ∈ v.lines, l.job = some u
  processed : ∀ u ∈ v.processed, u ∉ v.reader.pendingRequests
  registered : ∀ u ∈ v.registered, u ∈ v.submitted ∧
    (u ∈ v.reader.pendingRequests ∨ u ∈ v.reader.replies.map Prod.fst)
  replies : ∀ u x, (u, x) ∈ v.reader.replies → ∃ e : Event, e.commandLine = binPath u ∧
    (e.result, true) ∈ results ∧ x = e.value

variable {v w : ApiServer.State} {results : List (JobResult × Bool)}

/-- An event of another job matches no request. -/
theorem matches_none {e : Event} (h : namesNoId e.result.commandLine = true) {u : List Char}
    (hu : IsJobId u) : Reader.matchesUuid e.value u ≠ some true := by
  have hcommand : Reader.commandLine e.value = some (some (.string e.commandLine)) := rfl
  have hno : Reader.includes e.commandLine u = false :=
    Bool.eq_false_iff.mpr fun hin =>
      not_infix_of_namesNoId h hu ((ApiServer.includes_iff _ _).mp hin)
  rw [Reader.matchesUuid, hcommand]
  simp only [hno, Bool.and_false, ne_eq, Option.some.injEq, Bool.false_eq_true, not_false_eq_true]

theorem commandLine_of_request {e : Event} {u : List Char}
    (h : requestOf e.result.commandLine = some u) : IsJobId u ∧ e.commandLine = binPath u := by
  rcases requestOf_eq_some.mp h with ⟨hid, hpath⟩
  exact ⟨hid, Utf8.encode_injective hpath⟩

/-- The reader takes an event. -/
theorem serverInv_receives (hi : ServerInv v results) {i : Nat} {line : Line}
    (ht : v.turn = .idle) (hl : v.lines[i]? = some line) : ServerInv { v with
      reader := Reader.onLine v.reader line.text
      lines := v.lines.eraseIdx i
      processed := line.job.toList ++ v.processed } results := by
  have hmem : line ∈ v.lines := List.mem_of_getElem? hl
  have hinv := ApiServer.inv_moves hi.inv (.receives i line ht hl)
  -- whatever is no longer on its way is this line
  have hrest : ∀ l ∈ v.lines, l = line ∨ l ∈ v.lines.eraseIdx i := by
    intro l hmem'
    rcases List.getElem?_of_mem hmem' with ⟨j, hj⟩
    by_cases hji : j = i
    · exact .inl (Option.some.inj (hj.symm.trans (hji ▸ hl)))
    · exact .inr (List.mem_eraseIdx_iff_getElem?.mpr ⟨j, hji, hj⟩)
  have hlines := fun l hmem' => hi.lines l (List.mem_of_mem_eraseIdx (i := i) hmem')
  have harrived : ∀ r u, (r, true) ∈ results → requestOf r.commandLine = some u →
      u ∈ line.job.toList ++ v.processed ∨ ∃ l ∈ v.lines.eraseIdx i, l.job = some u := by
    intro r u hr hu
    rcases hi.arrived r u hr hu with hdone | ⟨l, hl', hjob⟩
    · exact .inl (List.mem_append_right _ hdone)
    · rcases hrest l hl' with rfl | hkept
      · exact .inl (List.mem_append_left _ (Option.mem_toList.mpr hjob))
      · exact .inr ⟨l, hkept, hjob⟩
  rcases hi.lines line hmem with ⟨e, he, htext, hjob, hnone⟩
  cases hrequest : line.job with
  | none =>
      have hquiet := onLine_unmatched (reads_text e) (r := v.reader) fun u hu =>
        matches_none (hnone hrequest) (hi.inv.ids u hu)
      rw [← htext] at hquiet
      refine ⟨hrequest ▸ hinv, hi.written, hlines, hrequest ▸ harrived, ?_, ?_, ?_⟩
      · simp only [hquiet.1, Option.toList_none, List.nil_append]
        exact hi.processed
      · simp only [hquiet.1, hquiet.2]
        exact hi.registered
      · simp only [hquiet.2]
        exact hi.replies
  | some u =>
      rcases commandLine_of_request (hjob.symm.trans hrequest) with ⟨hid, hpath⟩
      have hvalue : HasCommandLine e.value (binPath u) := hpath ▸ rfl
      have hanswer := onLine_answers hi.inv.ids hid (reads_text e) hvalue
      rw [← htext] at hanswer
      rcases hanswer with ⟨hpending, hreplies⟩
      refine ⟨hrequest ▸ hinv, hi.written, hlines, hrequest ▸ harrived, ?_, ?_, ?_⟩
      · simp only [hpending]
        intro x hx hmem'
        rw [hi.inv.nodup.mem_erase_iff] at hmem'
        rcases List.mem_append.mp hx with hx | hx
        · exact hmem'.1 (Option.some.inj (Option.mem_toList.mp hx)).symm
        · exact hi.processed x hx hmem'.2
      · simp only [hpending, hreplies]
        intro x hx
        rcases hi.registered x hx with ⟨hsub, hwhere⟩
        refine ⟨hsub, ?_⟩
        rcases hwhere with hwaits | hdone
        · by_cases hxu : x = u
          · subst hxu
            right
            rw [if_pos hwaits, List.map_append]
            exact List.mem_append_right _ (List.mem_singleton_self _)
          · exact .inl (hi.inv.nodup.mem_erase_iff.mpr ⟨hxu, hwaits⟩)
        · right
          rw [List.map_append]
          exact List.mem_append_left _ hdone
      · simp only [hreplies]
        intro x y hxy
        rcases List.mem_append.mp hxy with hxy | hxy
        · exact hi.replies x y hxy
        · split at hxy
          · rw [List.mem_singleton, Prod.mk.injEq] at hxy
            rw [hxy.1, hxy.2]
            exact ⟨e, hpath, he, rfl⟩
          · exact absurd hxy List.not_mem_nil

/-- The handler returns, and its request is pending. -/
theorem serverInv_registers (hi : ServerInv v results) {jobId : List Char}
    (ht : v.turn = .written jobId) : ServerInv { v with
      turn := .idle
      reader := Reader.step v.reader (.submit jobId)
      registered := jobId :: v.registered } results := by
  have hturn := hi.inv.turn
  rw [ht] at hturn
  have hnew : ¬ ApiServer.Settled v jobId := hturn.1.2.2
  refine ⟨ApiServer.inv_moves hi.inv (.registers jobId ht), fun u hu => ?_, hi.lines, hi.arrived,
    fun u hu hmem => ?_, fun u hu => ?_, hi.replies⟩
  · simp only [reduceCtorEq] at hu
  · rcases List.mem_append.mp hmem with hmem | hmem
    · exact hi.processed u hu hmem
    · rw [List.mem_singleton.mp hmem] at hu
      exact hnew (hi.inv.processed jobId hu)
  · rcases List.mem_cons.mp hu with rfl | hu
    · exact ⟨hi.written u ht, .inl (List.mem_append_right _ (List.mem_singleton_self _))⟩
    · rcases hi.registered u hu with ⟨hsub, hwhere⟩
      exact ⟨hsub, hwhere.imp_left (List.mem_append_left _)⟩

theorem serverInv_turns (hi : ServerInv v results) {a : ApiServer.Action} (ha : isTurn a = true)
    (h : ApiServer.Moves v a w) : ServerInv w results ∧ w.submitted = v.submitted := by
  have hinv := ApiServer.inv_moves hi.inv h
  cases h with
  -- none of these leaves the handler between the line and the registration
  | calls | refuses | abandons =>
      refine ⟨⟨hinv, fun u hu => ?_, hi.lines, hi.arrived, hi.processed, hi.registered,
        hi.replies⟩, rfl⟩
      simp only [reduceCtorEq] at hu
  | registers jobId ht => exact ⟨serverInv_registers hi ht, rfl⟩
  | receives i line ht hl => exact ⟨serverInv_receives hi ht hl, rfl⟩
  | writes | finishes | comes => exact absurd ha Bool.false_ne_true

theorem serverInv_writes (hi : ServerInv v results) {jobId : List Char}
    (ht : v.turn = .submitting jobId) : ServerInv { v with
      turn := .written jobId
      submitted := jobId :: v.submitted } results where
  inv := ApiServer.inv_moves hi.inv (.writes jobId ht)
  written u hu := by
    rw [Turn.written.injEq] at hu
    exact hu ▸ List.mem_cons_self
  lines := hi.lines
  arrived := hi.arrived
  processed := hi.processed
  registered u hu := ⟨List.mem_cons_of_mem _ (hi.registered u hu).1, (hi.registered u hu).2⟩
  replies := hi.replies

/-- A result whose event is lost. -/
theorem serverInv_loses (hi : ServerInv v results) (r : JobResult) :
    ServerInv v ((r, false) :: results) where
  inv := hi.inv
  written := hi.written
  lines l hl := (hi.lines l hl).imp fun _ h => ⟨List.mem_cons_of_mem _ h.1, h.2⟩
  arrived r' u hr hu := by
    rcases List.mem_cons.mp hr with heq | hr
    · simp only [Prod.mk.injEq, Bool.true_eq_false, and_false] at heq
    · exact hi.arrived r' u hr hu
  processed := hi.processed
  registered := hi.registered
  replies u x hx := (hi.replies u x hx).imp fun _ h => ⟨h.1, List.mem_cons_of_mem _ h.2.1, h.2.2⟩

/-- The text of a result is that of an event. -/
theorem eventLine_of_dump {r : JobResult} {text : Bytes}
    (htext : Json.dump (eventObject r) = .ok text) :
    ∃ e : Event, e.result = r ∧ eventLine r text = ⟨e.text, requestOf r.commandLine⟩ := by
  have hok : (Json.dump (eventObject r)).isOk = true := by
    rw [htext]
    rfl
  rcases (dump_eventObject_isOk r).mp hok with ⟨hc, ho, he⟩
  rcases event_of_valid hc ho he with ⟨e, rfl⟩
  rw [dump_event, Except.ok.injEq] at htext
  refine ⟨e, rfl, ?_⟩
  rw [eventLine, ← htext, Utf8.decode_encode]
  rfl

/-- A result whose event is written. -/
theorem serverInv_posts (hi : ServerInv v results) {r : JobResult} {text : Bytes}
    (htext : Json.dump (eventObject r) = .ok text)
    (hname : (∃ u ∈ v.submitted, IsJobId u ∧ r.commandLine = Utf8.encode (binPath u)) ∨
      namesNoId r.commandLine = true) :
    ServerInv (post v (eventLine r text)) ((r, true) :: results) := by
  rcases eventLine_of_dump htext with ⟨e, rfl, hline⟩
  rw [hline]
  have hmem : (e.result, true) ∈ (e.result, true) :: results := List.mem_cons_self
  have hinv : ApiServer.Inv (post v ⟨e.text, requestOf e.result.commandLine⟩) := by
    rcases hname with ⟨u, hu, hid, hpath⟩ | hno
    · have hrequest := requestOf_eq_some.mpr ⟨hid, hpath⟩
      rw [hrequest]
      exact ApiServer.inv_moves hi.inv (.finishes u e hu (Utf8.encode_injective hpath))
    · rw [requestOf_of_namesNoId hno]
      exact ApiServer.inv_moves hi.inv (.comes e.text)
  refine ⟨hinv, hi.written, fun l hl => ?_, fun r' u hr hu => ?_, hi.processed, hi.registered,
    fun u x hx => (hi.replies u x hx).imp fun _ h => ⟨h.1, List.mem_cons_of_mem _ h.2.1, h.2.2⟩⟩
  · rcases List.mem_append.mp hl with hl | hl
    · exact (hi.lines l hl).imp fun _ h => ⟨List.mem_cons_of_mem _ h.1, h.2⟩
    · rw [List.mem_singleton.mp hl]
      refine ⟨e, hmem, rfl, rfl, fun hnone => ?_⟩
      rcases hname with ⟨u, _, hid, hpath⟩ | hno
      · have hsome := requestOf_eq_some.mpr ⟨hid, hpath⟩
        exact absurd (hnone.symm.trans hsome) (by simp only [reduceCtorEq, not_false_eq_true])
      · exact hno
  · rcases List.mem_cons.mp hr with heq | hr
    · rw [Prod.mk.injEq] at heq
      refine .inr ⟨_, List.mem_append_right _ (List.mem_singleton_self _), ?_⟩
      rw [← hu, heq.1]
    · rcases hi.arrived r' u hr hu with hdone | ⟨l, hl, hjob⟩
      · exact .inl hdone
      · exact .inr ⟨l, List.mem_append_left _ hl, hjob⟩

/-! ## Runs -/

/-- What every step of the two programs preserves. -/
structure Inv (s : State n) : Prop where
  server : ServerInv s.server s.results
  pipe : PipeInv s.server.submitted s.lost s.commands s.pool.accepted
  pool : PoolInv s.pool s.results

theorem inv_init : Inv (init n) where
  server := {
    inv := ApiServer.inv_init (fun _ h => absurd h List.not_mem_nil) List.nodup_nil
    written := fun u h => by simp only [init, ApiServer.init, reduceCtorEq] at h
    lines := fun _ h => absurd h List.not_mem_nil
    arrived := fun _ _ h => absurd h List.not_mem_nil
    processed := fun _ h => absurd h List.not_mem_nil
    registered := fun _ h => absurd h List.not_mem_nil
    replies := fun _ _ h => absurd h List.not_mem_nil }
  pipe := {
    ids := fun _ h => absurd h List.not_mem_nil
    nodup := List.nodup_nil
    lines := fun _ h => absurd h List.not_mem_nil
    jobs := fun _ h => absurd h List.not_mem_nil
    once := fun _ _ => rfl }
  pool := {
    inv := Pool.inv_init
    named := ⟨fun _ h => absurd h List.not_mem_nil, fun w job hw => by
      simp only [init, Pool.init, Worker.job?, reduceCtorEq] at hw⟩
    final := fun w job res hw => by simp only [init, Pool.init, reduceCtorEq] at hw
    filed := rfl
    genuine := fun _ h => absurd h List.not_mem_nil }

/-- The pool keeps what it keeps, whatever the other jobs are. -/
theorem poolInv_of_moves {s t : State n} {a : Action n} (hi : PoolInv s.pool s.results)
    (h : Moves sched s a t) : PoolInv t.pool t.results := by
  cases h with
  | turns | writes | drops | throws | dies => exact hi
  | takes _ _ _ _ _ _ _ hpool | submits _ _ _ hpool =>
      exact poolInv_moves hi hpool fun _ h => by simp only [reduceCtorEq] at h
  | pools a p ha hpool =>
      refine poolInv_moves hi hpool fun w h => ?_
      rw [h] at ha
      exact absurd ha Bool.false_ne_true
  | shows w delivered job res text p hw htext hpool => exact poolInv_shows hi hw hpool delivered

/-- A job that is no request's names no job id. -/
def unrelated : Action n → Bool
  | .submit cmd _ => namesNoId cmd.executable
  | _ => true

theorem inv_moves {s t : State n} {a : Action n} (hi : Inv s) (hother : unrelated a = true)
    (h : Moves sched s a t) : Inv t := by
  have hpool := poolInv_of_moves hi.pool h
  cases h with
  | turns a v ha hv =>
      rcases serverInv_turns hi.server ha hv with ⟨hserver, hsubmitted⟩
      exact ⟨hserver, hsubmitted ▸ hi.pipe, hpool⟩
  | writes delivered jobId ht =>
      have hturn := hi.server.inv.turn
      rw [ht] at hturn
      -- a request that is not settled was not written either
      have hnew : jobId ∉ s.server.submitted := fun hmem => hturn.1.2.2 (hturn.2 jobId hmem)
      exact ⟨serverInv_writes hi.server ht, pipeInv_writes hi.pipe hturn.1.1 hnew delivered, hpool⟩
  | drops line rest wake hc hp =>
      -- every line in the pipe is a job's
      rcases hi.pipe.lines line (hc ▸ List.mem_cons_self) with ⟨u, _, rfl⟩
      rw [parseJob_jobText] at hp
      simp only [reduceCtorEq] at hp
  | takes line rest cmd wake p hc hp hmoves =>
      refine ⟨hi.server, ?_, hpool⟩
      rw [Pool.accepted_of_enqueue hmoves]
      exact pipeInv_takes (hc ▸ hi.pipe) hp rfl
  | submits cmd wake p hmoves =>
      refine ⟨hi.server, ?_, hpool⟩
      rw [Pool.accepted_of_enqueue hmoves]
      exact pipeInv_submits hi.pipe hother
  | pools a p ha hmoves =>
      have hnew : ∀ sub wake, a ≠ .enqueue sub wake := by
        rintro sub wake rfl
        exact absurd ha Bool.false_ne_true
      refine ⟨hi.server, ?_, hpool⟩
      rw [Pool.accepted_of_moves hmoves hnew]
      exact hi.pipe
  | shows w delivered job res text p hw htext hmoves =>
      have haccepted : p.accepted = s.pool.accepted :=
        Pool.accepted_of_moves hmoves fun _ _ h => by simp only [reduceCtorEq] at h
      cases delivered with
      | false => exact ⟨serverInv_loses hi.server _, haccepted ▸ hi.pipe, hpool⟩
      | true =>
          refine ⟨serverInv_posts hi.server htext ?_, haccepted ▸ hi.pipe, hpool⟩
          rcases result_of_finished hi.pool hw with ⟨a, ha, _, hres⟩
          rw [hres]
          refine (hi.pipe.jobs a ha).imp_left fun ⟨u, hu, hcmd⟩ => ?_
          exact ⟨u, hu, hi.pipe.ids u hu, congrArg Command.executable hcmd⟩
  | throws | dies => exact { hi with }

theorem inv_run {actions : List (Action n)} {s : State n}
    (hothers : ∀ a ∈ actions, unrelated a = true)
    (h : Lts.run (step sched) (init n) actions = some s) : Inv s :=
  Lts.end_of_along (fun _ _ _ hi ha hs => inv_moves hi ha (moves_of_step hs)) inv_init
    (Lts.along_of_forall fun a ha _ => hothers a ha) h

end Portal

end Isolyx
