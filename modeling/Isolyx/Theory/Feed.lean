import Isolyx.Core.Browser
import Isolyx.Theory.RoundTrip

/-!
# What a Page Shows

A page lists the newest fifty of the events it got. This says which events those
are, for any number of pages that come and go at any moment while the engine
runs its jobs and the server takes requests.

Of the events the server emitted, no two are about the same job, and each is the
event of what its job came to (`Flow`). From what was emitted a page gets some,
in the order of the emission and each of them once, and as long as its
connection lasts it misses none (`Follows`). So no page ever lists a job twice,
and the pages that are connected agree (`feed`).

## Main definitions

* `Flow`: The events emitted and those on their way.
* `Follows`: What one page got of the events emitted.
* `Feed`: What the pages show.

## Theorems

* `flow_moves`: The server emits one event after the other.
* `follows_broadcast`: A page follows what is emitted.
* `inv_run`: In every run, all pages follow.
* `feed`: No job is listed twice, and none is missed on a connection.
-/

namespace Isolyx

namespace ApiServer

open Reader (onLine)

/-- An event is emitted whatever becomes of it afterwards. -/
theorem onLine_emits {r : Reader.State} {line : List Char} {event : JsonText.Value}
    (hl : Reads line event) : (onLine r line).emitted = r.emitted ++ [event] := by
  have hkept : ¬ line.all Reader.isTrimmed = true := by
    rw [hl.kept]
    exact Bool.false_ne_true
  rw [onLine, if_neg hkept, hl.parsed]
  dsimp only
  split
  · rfl
  · rfl
  · rfl

end ApiServer

namespace Portal

open ApiServer (Line reads_text onLine_emits)

variable {n : Nat} {sched : Scheduler} {s t : State n}

/-- The results whose events were written. -/
def shown (results : List (JobResult × Bool)) : List JobResult :=
  (results.filter Prod.snd).map Prod.fst

/-- The events emitted are `es`, those on their way are `ws`, and they are the
    events that were written. -/
structure Flow (s : State n) (es ws : List Event) : Prop where
  emitted : s.server.reader.emitted = es.map Event.value
  lines : s.server.lines.map Line.text = ws.map Event.text
  written : ((es ++ ws).map Event.result).Perm (shown s.results)

theorem flow_receives {es ws : List Event} (hf : Flow s es ws) {i : Nat} {line : Line}
    (hl : s.server.lines[i]? = some line) : ∃ e, Flow { s with server := { s.server with
      reader := Reader.onLine s.server.reader line.text
      lines := s.server.lines.eraseIdx i
      processed := line.job.toList ++ s.server.processed } } (es ++ [e]) (ws.eraseIdx i) := by
  have htexts := congrArg (fun texts => texts[i]?) hf.lines
  simp only [List.getElem?_map, hl, Option.map_some] at htexts
  rcases Option.map_eq_some_iff.mp htexts.symm with ⟨e, he, htext⟩
  rcases List.getElem?_eq_some_iff.mp he with ⟨hi, rfl⟩
  refine ⟨ws[i], ?_, ?_, ?_⟩
  · dsimp only
    rw [← htext, onLine_emits (reads_text _), hf.emitted, List.map_append]
    rfl
  · dsimp only
    rw [← List.eraseIdx_map, ← List.eraseIdx_map, hf.lines]
  · refine List.Perm.trans (List.Perm.map _ ?_) hf.written
    rw [List.append_assoc]
    exact List.Perm.append_left _ (List.getElem_cons_eraseIdx_perm hi)

/-- The server emits one event after the other. -/
theorem flow_moves {es ws : List Event} (hf : Flow s es ws) {a : Action n}
    (h : Moves sched s a t) : ∃ es' ws', es <+: es' ∧ Flow t es' ws' := by
  cases h with
  | turns a v ha hv =>
      cases hv with
      | receives i line ht hl =>
          rcases flow_receives hf hl with ⟨e, hf'⟩
          exact ⟨_, _, List.prefix_append _ _, hf'⟩
      -- an event comes by `shows` only
      | finishes | comes => exact absurd ha Bool.false_ne_true
      | _ => exact ⟨es, ws, List.prefix_rfl, hf.emitted, hf.lines, hf.written⟩
  | shows w delivered job res text p hw htext hpool =>
      cases delivered with
      | false => exact ⟨es, ws, List.prefix_rfl, hf.emitted, hf.lines, hf.written⟩
      | true =>
          rcases eventLine_of_dump htext with ⟨e, he, hline⟩
          refine ⟨es, ws ++ [e], List.prefix_rfl, hf.emitted, ?_, ?_⟩
          · simp only [if_true, post, hline, List.map_append, hf.lines, List.map_cons, List.map_nil]
          · have hnew : shown ((jobResult job res, true) :: s.results)
                = jobResult job res :: shown s.results := rfl
            dsimp only
            rw [hnew, ← List.append_assoc, List.map_append, List.map_singleton, he]
            exact (List.perm_append_singleton _ _).trans (hf.written.cons _)
  | _ => exact ⟨es, ws, List.prefix_rfl, hf.emitted, hf.lines, hf.written⟩

end Portal

namespace Browser

open JsonText (Value)
open Portal (Flow flow_moves shown)

variable {n : Nat} {sched : Scheduler} {s t : State n}

/-- What one page got of the events emitted. -/
structure Follows (events : List Value) (c : Client) : Prop where
  jobs : c.jobs = c.received.reverse.take 50
  before : c.before ≤ c.received.length
  since : c.since ≤ events.length
  /-- What it got on earlier connections, it got in order. -/
  earlier : (c.received.take c.before).Sublist (events.take c.since)
  /-- What it got on its last connection is what was emitted from then on. -/
  gapless : c.received.drop c.before <+: events.drop c.since
  pending : ∀ queue, c.connection = some queue →
    c.received.drop c.before ++ queue = events.drop c.since

theorem Follows.received {events : List Value} {c : Client} (h : Follows events c) :
    c.received.Sublist events := by
  have hparts := h.earlier.append h.gapless.sublist
  rw [List.take_append_drop, List.take_append_drop] at hparts
  exact hparts

/-- A page follows what is emitted. -/
theorem follows_broadcast {events more : List Value} {c : Client} (h : Follows events c) :
    Follows (events ++ more) { c with connection := c.connection.map (· ++ more) } where
  jobs := h.jobs
  before := h.before
  since := by
    rw [List.length_append]
    exact Nat.le_add_right_of_le h.since
  earlier := by
    rw [List.take_append_of_le_length h.since]
    exact h.earlier
  gapless := by
    rw [List.drop_append_of_le_length h.since]
    exact h.gapless.trans (List.prefix_append _ _)
  pending queue hq := by
    rcases Option.map_eq_some_iff.mp hq with ⟨rest, hrest, rfl⟩
    rw [List.drop_append_of_le_length h.since, ← List.append_assoc, h.pending rest hrest]

theorem follows_connect {events : List Value} {c : Client} (h : Follows events c) :
    Follows events { c with
      connection := some []
      before := c.received.length
      since := events.length } where
  jobs := h.jobs
  before := Nat.le_refl _
  since := Nat.le_refl _
  earlier := by
    rw [List.take_length, List.take_length]
    exact h.received
  gapless := by
    rw [List.drop_length]
    exact List.nil_prefix
  pending queue hq := by
    rw [← Option.some.inj hq, List.drop_length, List.drop_length]
    rfl

theorem follows_disconnect {events : List Value} {c : Client} (h : Follows events c) :
    Follows events { c with connection := none } :=
  { h with pending := fun _ hq => by simp only [reduceCtorEq] at hq }

/-- The next event is in front of the list, and the fifty-first is dropped. -/
theorem follows_gets {events rest : List Value} {event : Value} {c : Client}
    (h : Follows events c) (hc : c.connection = some (event :: rest)) :
    Follows events { c with
      jobs := addJob event c.jobs
      connection := some rest
      received := c.received ++ [event] } := by
  have hdrop : (c.received ++ [event]).drop c.before = c.received.drop c.before ++ [event] :=
    List.drop_append_of_le_length h.before
  have hall : (c.received ++ [event]).drop c.before ++ rest = events.drop c.since := by
    rw [hdrop, List.append_assoc, List.singleton_append, h.pending _ hc]
  refine ⟨?_, ?_, h.since, ?_, ⟨rest, hall⟩, fun queue hq => ?_⟩
  · simp only [addJob, h.jobs, List.reverse_append, List.reverse_singleton, List.singleton_append]
    rw [List.take_succ_cons, List.take_succ_cons, List.take_take]
    rfl
  · simp only [List.length_append]
    exact Nat.le_add_right_of_le h.before
  · simp only [List.take_append_of_le_length h.before]
    exact h.earlier
  · rw [← Option.some.inj hq]
    exact hall

/-! ## Runs -/

/-- What every step preserves. -/
structure Inv (s : State n) : Prop where
  pool : Portal.PoolInv s.portal.pool s.portal.results
  flow : ∃ es ws, Flow s.portal es ws
  follows : ∀ c, Follows (emitted s) (s.clients c)

theorem inv_init : Inv (init n) where
  pool := Portal.inv_init.pool
  flow := ⟨[], [], rfl, rfl, List.Perm.nil⟩
  follows _ := ⟨rfl, Nat.le_refl _, Nat.le_refl _, List.Sublist.slnil, List.prefix_rfl,
    fun _ hq => by simp only [init, Client.fresh, reduceCtorEq] at hq⟩

theorem follows_setClient {c : Nat} {client : Client} (hf : ∀ x, Follows (emitted s) (s.clients x))
    (h : Follows (emitted s) client) (x : Nat) :
    Follows (emitted s) ((setClient s c client).clients x) := by
  simp only [setClient, Function.update_apply]
  split
  · exact h
  · exact hf x

theorem inv_moves {a : Action n} (hi : Inv s) (h : Moves sched s a t) : Inv t := by
  cases h with
  | proceeds a p h =>
      rcases hi.flow with ⟨es, ws, hflow⟩
      rcases flow_moves hflow h with ⟨es', ws', hle, hflow'⟩
      refine ⟨Portal.poolInv_of_moves hi.pool h, ⟨es', ws', hflow'⟩, fun c => ?_⟩
      have hprefix : emitted s <+: p.server.reader.emitted := by
        rw [emitted, hflow.emitted, hflow'.emitted]
        exact hle.map _
      rcases hprefix with ⟨more, hmore⟩
      simp only [emitted, broadcast, ← hmore, List.drop_left]
      exact follows_broadcast (hi.follows c)
  | connects c hc =>
      exact ⟨hi.pool, hi.flow, follows_setClient hi.follows (follows_connect (hi.follows c))⟩
  | disconnects c =>
      exact ⟨hi.pool, hi.flow, follows_setClient hi.follows (follows_disconnect (hi.follows c))⟩
  | gets c event rest hc =>
      exact ⟨hi.pool, hi.flow, follows_setClient hi.follows (follows_gets (hi.follows c) hc)⟩

/-- In every run, all pages follow. -/
theorem inv_run {actions : List (Action n)} (h : Lts.run (step sched) (init n) actions = some s) :
    Inv s :=
  Lts.run_invariant (fun _ _ _ hi hs => inv_moves hi (moves_of_step hs)) inv_init h

/-- The events emitted are about different jobs. -/
theorem nodup_of_flow {es ws : List Event} (hi : Inv s) (hf : Flow s.portal es ws) :
    ((es ++ ws).map Event.jobId).Nodup := by
  have hids : (es ++ ws).map Event.jobId = ((es ++ ws).map Event.result).map JobResult.jobId := by
    rw [List.map_map]
    rfl
  rw [hids, (hf.written.map _).nodup_iff, shown, List.map_map]
  have hfiled : (s.portal.results.map fun r => r.1.jobId).Nodup := by
    rw [hi.pool.filed, List.nodup_iff_count_le_one]
    intro i
    exact (Pool.count_submissions_le hi.pool.inv i).trans
      (List.nodup_iff_count_le_one.mp hi.pool.inv.ids i)
  exact hfiled.sublist (List.filter_sublist.map _)

/-- What the pages show. -/
structure Feed (s : State n) : Prop where
  /-- The events emitted are those of different jobs, each of what its job came
      to; those that were written and not emitted are still on their way. -/
  events : ∃ es ws : List Event, emitted s = es.map Event.value ∧
    s.portal.server.lines.map ApiServer.Line.text = ws.map Event.text ∧
    ((es ++ ws).map Event.jobId).Nodup ∧
    ∀ r, (r, true) ∈ s.portal.results ↔ ∃ e ∈ es ++ ws, e.result = r
  /-- A page lists the newest fifty of those it got, and no job twice. -/
  jobs : ∀ c, (s.clients c).jobs = (s.clients c).received.reverse.take 50 ∧
    ∃ es : List Event, (s.clients c).jobs = es.map Event.value ∧ (es.map Event.jobId).Nodup
  /-- A page gets the events in the order in which they were emitted. -/
  order : ∀ c, (s.clients c).received.Sublist (emitted s)
  /-- As long as it is connected it misses none. -/
  gapless : ∀ c queue, (s.clients c).connection = some queue →
    (s.clients c).received.drop (s.clients c).before ++ queue
      = (emitted s).drop (s.clients c).since

/-- In every run, with any jobs and any number of pages that connect and
    disconnect at any moment. -/
theorem feed (sched : Scheduler) (n : Nat) (actions : List (Action n)) (s : State n)
    (h : Lts.run (step sched) (init n) actions = some s) : Feed s := by
  have hi := inv_run h
  rcases hi.flow with ⟨es, ws, hflow⟩
  have hnodup := nodup_of_flow hi hflow
  refine ⟨⟨es, ws, hflow.emitted, hflow.lines, hnodup, fun r => ?_⟩, fun c => ?_,
    fun c => (hi.follows c).received, fun c => (hi.follows c).pending⟩
  · have hmem := hflow.written.mem_iff (a := r)
    simp only [shown, List.mem_map, List.mem_filter, Prod.exists] at hmem
    constructor
    · intro hr
      exact hmem.mpr ⟨r, true, ⟨hr, rfl⟩, rfl⟩
    · intro he
      rcases hmem.mp he with ⟨_, delivered, ⟨hr, htrue⟩, rfl⟩
      exact htrue ▸ hr
  · have hjobs := (hi.follows c).jobs
    refine ⟨hjobs, ?_⟩
    -- the list is a part of what was emitted, the other way round
    have hlist : (s.clients c).jobs.Sublist (es.map Event.value).reverse := by
      rw [hjobs, ← hflow.emitted]
      exact (List.take_sublist _ _).trans (hi.follows c).received.reverse
    rw [← List.map_reverse] at hlist
    rcases List.sublist_map_iff.mp hlist with ⟨js, hjs, hvalues⟩
    refine ⟨js, hvalues, List.Nodup.sublist (hjs.map _) ?_⟩
    rw [List.map_reverse, List.nodup_reverse]
    rw [List.map_append] at hnodup
    exact hnodup.of_append_left

/-- A page that connects after the first of three events, and one that comes and
    goes. -/
theorem feed_two : ∃ s : State 1, ((s.clients 0).received.length = 2 ∧
    (s.clients 0).connection = some []) ∧ (s.clients 1).jobs.length = 1 ∧ Feed s := by
  let job (path : String) (pid : Nat) : List (Action 1) := [
    .portal (.submit { executable := ascii path } none), .portal (.pool (.testRunning 0)),
    .portal (.pool (.dequeue 0)), .portal (.pool (.execute 0 { exitCode := 0 } pid pid)),
    .portal (.submitResult 0 true), .portal (.server (.receive 0)),
    .portal (.pool (.returnFromSubmitResult 0)), .portal (.pool (.setPromise 0)),
    .portal (.pool (.endIteration 0))]
  let actions := [.connect 1] ++ job "/a" 1 ++ [.connect 0, .jobResult 1, .disconnect 1] ++
    job "/b" 2 ++ job "/c" 3 ++ [.jobResult 0, .jobResult 0]
  have hrun : (Lts.run (step .fcfs) (init 1) actions).map (fun s =>
      ((s.clients 0).received.length, (s.clients 0).connection.map List.length,
        (s.clients 1).jobs.length)) = some (2, some 0, 1) := by
    decide +kernel
  rcases Option.map_eq_some_iff.mp hrun with ⟨s, hs, hend⟩
  simp only [Prod.mk.injEq, Option.map_eq_some_iff, List.length_eq_zero_iff] at hend
  rcases hend with ⟨hreceived, ⟨queue, hqueue, rfl⟩, hjobs⟩
  exact ⟨s, ⟨hreceived, hqueue⟩, hjobs, feed .fcfs 1 actions s hs⟩

end Browser

end Isolyx
