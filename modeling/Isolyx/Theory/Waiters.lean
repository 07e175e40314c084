import Isolyx.Core.Waits
import Isolyx.Library.Tally

/-!
# Statuses and Their Waiters

A thread in the wait of `isolateAndRun`, or in a pipeline in the foreground, is
going to wait for certain children, and so is whoever resumes a preempted job.
Collected over all threads and the queue these are the dues (`dues`). As long
as every status goes to its waiter, no child is due twice and every due is met
by a child with the number of the right call (`Kept`), so that a `waitpid`
finds the child it asks for, and nobody else's.

Two steps break this. `reapZombies` asks for any child, not for one of a
pipeline in the background, although that is what it says it has found. And a
pipeline that cannot go on returns without a wait for what it has forked.
Everything is delivered exactly in the runs without these (`delivered_iff`).

## Main definitions

* `Delivered`: Every status went to its waiter.
* `Attended`: Dues and the children that meet them.
* `dues`: The children that anyone is going to wait for.
* `Kept`: Every due is met.
* `Undisturbed`: What a step must not do.

## Theorems

* `Attended.take`, `Attended.start`, `Attended.renumber`: A child goes, comes or
  gets another waiter.
* `Kept.found`: A thread finds the child that it waits for.
* `kept_step`: An undisturbed step keeps every due met.
* `delivered_step_iff`: A step delivers exactly if it is undisturbed.
* `delivered_iff`: When everything is delivered throughout.
* `stolen`: A job and a pipeline whose statuses are taken.
-/

namespace Isolyx

namespace Waits

open Lts

variable {n : Nat}

/-- Every status that was taken was taken by the call that had launched the
    child, or resumed it last, unless the child is one of a pipeline in the
    background. No call has left such a child behind, no `waitpid` for one
    failed, and no result comes from a variable that was never written. -/
structure Delivered (s : State n) : Prop where
  taken : ∀ r ∈ s.taken, r.child.awaited = true → r.taker = some r.child.caller
  failed : s.failed = []
  abandoned : s.abandoned = []
  results : ∀ r ∈ s.results, r.2 ≠ none

/-! ## Waiters and children -/

/-- A child that is waited for, and the number of the waiter's call; a job in the
    queue has none. -/
abbrev Due := Nat × Option Nat

/-- The child is there, and its number is that of the call. -/
def Met (children : List Child) (d : Due) : Prop :=
  ∃ c ∈ children, c.pid = d.1 ∧ c.awaited = true ∧ ∀ call, d.2 = some call → c.caller = call

/-- Every child that somebody waits for is there, and waited for once. -/
structure Attended (ds : Multiset Due) (children : List Child) : Prop where
  pids : (children.map Child.pid).Nodup
  once : (ds.map Prod.fst).Nodup
  met : ∀ d ∈ ds, Met children d

namespace Attended

variable {ds : Multiset Due} {children : List Child}

theorem eq_of_pid (h : Attended ds children) {c d : Child} (hc : c ∈ children)
    (hd : d ∈ children) (hpid : c.pid = d.pid) : c = d :=
  List.inj_on_of_nodup_map h.pids hc hd hpid

theorem of_le (h : Attended ds children) {es : Multiset Due} (hle : es ≤ ds) :
    Attended es children where
  pids := h.pids
  once := Multiset.nodup_of_le (Multiset.map_le_map hle) h.once
  met := fun d hd => h.met d (Multiset.mem_of_le hle hd)

theorem notMem {d : Due} (h : Attended (d ::ₘ ds) children) : ∀ e ∈ ds, e.1 ≠ d.1 := by
  intro e he heq
  have hnodup := h.once
  rw [Multiset.map_cons, Multiset.nodup_cons] at hnodup
  exact hnodup.1 (heq ▸ Multiset.mem_map_of_mem Prod.fst he)

/-- A child that nobody waits for may go. -/
theorem remove (h : Attended ds children) {pid : Nat} (hpid : ∀ d ∈ ds, d.1 ≠ pid) :
    Attended ds (children.filter fun c => c.pid ≠ pid) where
  pids := h.pids.sublist (List.filter_sublist.map Child.pid)
  once := h.once
  met := by
    intro d hd
    rcases h.met d hd with ⟨c, hc, hcd, hrest⟩
    exact ⟨c, List.mem_filter.mpr ⟨hc, decide_eq_true (hcd ▸ hpid d hd)⟩, hcd, hrest⟩

/-- So may one that is waited for, together with its waiter. -/
theorem take {d : Due} (h : Attended (d ::ₘ ds) children) :
    Attended ds (children.filter fun c => c.pid ≠ d.1) :=
  (h.of_le (Multiset.le_cons_self ds d)).remove h.notMem

theorem not_due (h : Attended ds children) {c : Child} (hc : c ∈ children)
    (hback : c.awaited = false) : ∀ d ∈ ds, d.1 ≠ c.pid := by
  intro d hd heq
  rcases h.met d hd with ⟨e, he, hed, hawaited, -⟩
  rw [h.eq_of_pid he hc (hed.trans heq), hback] at hawaited
  exact Bool.false_ne_true hawaited

theorem add (h : Attended ds children) {c : Child} (hnew : ∀ d ∈ children, d.pid ≠ c.pid) :
    Attended ds (children ++ [c]) where
  pids := by
    rw [List.map_append, List.nodup_append]
    refine ⟨h.pids, List.pairwise_singleton _ _, fun p hp q hq => ?_⟩
    rcases List.mem_map.mp hp with ⟨d, hd, rfl⟩
    rw [List.mem_singleton.mp hq]
    exact hnew d hd
  once := h.once
  met := by
    intro d hd
    rcases h.met d hd with ⟨e, he, hrest⟩
    exact ⟨e, List.mem_append_left _ he, hrest⟩

/-- A call gets a child to wait for. -/
theorem start (h : Attended ds children) {c : Child} (hnew : ∀ d ∈ children, d.pid ≠ c.pid)
    (hawaited : c.awaited = true) : Attended ((c.pid, some c.caller) ::ₘ ds) (children ++ [c]) where
  pids := (h.add hnew).pids
  once := by
    rw [Multiset.map_cons, Multiset.nodup_cons]
    refine ⟨fun hmem => ?_, h.once⟩
    rcases Multiset.mem_map.mp hmem with ⟨d, hd, hpid⟩
    rcases h.met d hd with ⟨e, he, hed, -⟩
    exact hnew e he (hed.trans hpid)
  met := by
    intro d hd
    rcases Multiset.mem_cons.mp hd with rfl | hd
    · exact ⟨c, List.mem_append_right _ List.mem_cons_self, rfl, hawaited, fun _ h =>
        Option.some.inj h⟩
    · exact (h.add hnew).met d hd

/-- What a child does changes nothing of this. -/
theorem map (h : Attended ds children) {f : Child → Child} (hpid : ∀ c, (f c).pid = c.pid)
    (hcaller : ∀ c, (f c).caller = c.caller) (hawaited : ∀ c, (f c).awaited = c.awaited) :
    Attended ds (children.map f) where
  pids := by
    rw [List.map_map, show Child.pid ∘ f = Child.pid from funext hpid]
    exact h.pids
  once := h.once
  met := by
    intro d hd
    rcases h.met d hd with ⟨c, hc, hcd, hcall⟩
    refine ⟨f c, List.mem_map_of_mem hc, (hpid c).trans hcd, ?_⟩
    rw [hawaited, hcaller]
    exact hcall

theorem setStatus (h : Attended ds children) (pid : Nat) (status : ChildStatus) :
    Attended ds (children.map fun c => if c.pid = pid then { c with status } else c) := by
  refine h.map (fun c => ?_) (fun c => ?_) (fun c => ?_) <;> split_ifs <;> rfl

/-- The waiter may be any call, once the child has its number. -/
theorem renumber {pid : Nat} {k : Option Nat} (h : Attended ((pid, k) ::ₘ ds) children)
    (call : Nat) : Attended ((pid, some call) ::ₘ ds)
      (children.map fun c => if c.pid = pid then { c with caller := call } else c) where
  pids := by
    have hsame : Child.pid ∘ (fun c => if c.pid = pid then { c with caller := call } else c)
        = Child.pid := by
      funext c
      simp only [Function.comp_apply]
      split_ifs <;> rfl
    rw [List.map_map, hsame]
    exact h.pids
  once := by
    have honce := h.once
    rwa [Multiset.map_cons] at honce ⊢
  met := by
    intro d hd
    rcases Multiset.mem_cons.mp hd with rfl | hd
    · rcases h.met (pid, k) (Multiset.mem_cons_self _ _) with ⟨c, hc, hcd, hawaited, -⟩
      refine ⟨{ c with caller := call }, List.mem_map.mpr ⟨c, hc, if_pos hcd⟩, hcd, hawaited, ?_⟩
      exact fun _ h => Option.some.inj h
    · rcases h.met d (Multiset.mem_cons_of_mem hd) with ⟨c, hc, hcd, hrest⟩
      have hne : c.pid ≠ pid := hcd ▸ h.notMem d hd
      exact ⟨c, List.mem_map.mpr ⟨c, hc, if_neg hne⟩, hcd, hrest⟩

/-- A call that stops waiting leaves the child to the queue. -/
theorem release {pid : Nat} {k : Option Nat} (h : Attended ((pid, k) ::ₘ ds) children) :
    Attended ((pid, none) ::ₘ ds) children where
  pids := h.pids
  once := by
    have honce := h.once
    rwa [Multiset.map_cons] at honce ⊢
  met := by
    intro d hd
    rcases Multiset.mem_cons.mp hd with rfl | hd
    · rcases h.met (pid, k) (Multiset.mem_cons_self _ _) with ⟨c, hc, hcd, hawaited, -⟩
      exact ⟨c, hc, hcd, hawaited, nofun⟩
    · exact h.met d (Multiset.mem_cons_of_mem hd)

end Attended

/-! ## What a state owes -/

/-- The children that a thread is going to wait for. -/
def Call.dues : Call → List Due
  | .outside => []
  | .isolating call pid _ => [(pid, some call)]
  | .forking call _ background pids => if background then [] else pids.map (·, some call)
  | .waiting call pids => pids.map (·, some call)

/-- The children that whoever resumes the preempted jobs is going to wait for. -/
def queued (queue : List Nat) : Multiset Due := Multiset.map (·, none) queue

/-- The children that anyone is going to wait for. -/
def dues (calls : Fin n → Call) (queue : List Nat) : Multiset Due :=
  (∑ i, ((calls i).dues : Multiset Due)) + queued queue

/-- Every child that is owed is there. -/
abbrev Kept (s : State n) : Prop := Attended (dues s.calls s.queue) s.children

theorem dues_split (calls : Fin n → Call) (i : Fin n) : ∃ rest : Multiset Due, ∀ c queue,
    dues (Function.update calls i c) queue = c.dues + (rest + queued queue) := by
  rcases Threads.sum_update_split (fun c : Call => (c.dues : Multiset Due)) calls i with
    ⟨rest, hrest⟩
  refine ⟨rest, fun c queue => ?_⟩
  rw [dues, hrest, add_assoc]

/-- The same of a state, with what one of its threads owes. -/
theorem Kept.split {s : State n} (h : Kept s) {i : Fin n} {c : Call} (hi : s.calls i = c) :
    ∃ rest : Multiset Due,
      Attended (c.dues + (rest + queued s.queue)) s.children ∧
      ∀ c queue, dues (Function.update s.calls i c) queue
        = c.dues + (rest + queued queue) := by
  rcases dues_split s.calls i with ⟨rest, hrest⟩
  refine ⟨rest, ?_, hrest⟩
  rw [← hrest, ← hi, Function.update_eq_self]
  exact h

theorem child?_none {s : State n} {pid : Nat} (h : child? s pid = none) :
    ∀ c ∈ s.children, c.pid ≠ pid := by
  intro c hc
  simpa only [decide_eq_true_eq] using List.find?_eq_none.mp h c hc

theorem child?_some {s : State n} {pid : Nat} {c : Child} (h : child? s pid = some c) :
    c ∈ s.children ∧ c.pid = pid := by
  rw [child?] at h
  have hpid := List.find?_some h
  exact ⟨List.mem_of_find?_eq_some h, of_decide_eq_true hpid⟩

/-- A thread finds the child that it waits for, and it is the one of its call. -/
theorem Kept.found {s : State n} (h : Kept s) {i : Fin n} {c : Call} (hi : s.calls i = c)
    {pid call : Nat} (hdue : (pid, some call) ∈ c.dues) :
    child? s pid ≠ none ∧ ∀ d, child? s pid = some d → d.caller = call := by
  rcases h.split hi with ⟨rest, hatt, -⟩
  rcases hatt.met _ (Multiset.mem_add.mpr (.inl hdue)) with ⟨d, hd, hpid, -, hcall⟩
  refine ⟨fun hnone => child?_none hnone d hd hpid, fun e he => ?_⟩
  rcases child?_some he with ⟨hmem, hepid⟩
  rw [hatt.eq_of_pid hmem hd (hepid.trans hpid.symm)]
  exact hcall call rfl

/-! ## Steps -/

/-- What a step must not do: `reapZombies` takes the status of a child that is
    not one of a pipeline in the background, or `pipe` or `fork` fails for a
    pipeline in the foreground that has forked already. -/
def Undisturbed (s : State n) : Action n → Prop
  | .reap _ pid => ∀ c ∈ s.children, c.pid = pid → c.awaited = false
  | .fork i none => ∀ call left pids, s.calls i = .forking call left false pids → pids = []
  | _ => True

theorem forked_eq (s : State n) (i : Fin n) (call left : Nat) (background : Bool)
    (pids : List Nat) : ∃ c : Call,
      c.dues = (if background then [] else pids.map (·, some call)) ∧
      (forked s i call left background pids).calls = Function.update s.calls i c ∧
      (forked s i call left background pids).queue = s.queue ∧
      (forked s i call left background pids).children = s.children := by
  rw [forked]
  by_cases hleft : left ≠ 0
  · rw [if_pos hleft]
    exact ⟨.forking call left background pids, rfl, rfl, rfl, rfl⟩
  · rw [if_neg hleft]
    cases background with
    | true => exact ⟨.outside, rfl, rfl, rfl, rfl⟩
    | false => exact ⟨.waiting call pids, rfl, rfl, rfl, rfl⟩

theorem waited_eq (s : State n) (i : Fin n) (call : Nat) (rest : List Nat)
    (status : Option Lifecycle.WaitStatus) : ∃ c : Call, c.dues = rest.map (·, some call) ∧
      (waited s i call rest status).calls = Function.update s.calls i c ∧
      (waited s i call rest status).queue = s.queue ∧
      (waited s i call rest status).children = s.children := by
  rw [waited]
  split_ifs with hrest
  · rw [List.isEmpty_iff.mp hrest]
    exact ⟨.outside, rfl, rfl, rfl, rfl⟩
  · exact ⟨.waiting call rest, rfl, rfl, rfl, rfl⟩

theorem coe_cons_add (d : Due) (l : List Due) (ds : Multiset Due) :
    ((d :: l : List Due) : Multiset Due) + ds = d ::ₘ ((l : Multiset Due) + ds) := by
  rw [← Multiset.cons_coe, Multiset.cons_add]

theorem queued_append (queue : List Nat) (pid : Nat) :
    queued (queue ++ [pid]) = (pid, none) ::ₘ queued queue := by
  have hperm : ((queue ++ [pid] : List Nat) : Multiset Nat) = pid ::ₘ queue :=
    Multiset.coe_eq_coe.mpr List.perm_append_comm
  rw [queued, hperm, Multiset.map_cons, queued]

theorem queued_erase {queue : List Nat} {pid : Nat} (h : pid ∈ queue) :
    queued queue = (pid, none) ::ₘ queued (queue.erase pid) := by
  have hperm : (queue : Multiset Nat) = pid ::ₘ (queue.erase pid : List Nat) :=
    Multiset.coe_eq_coe.mpr (List.perm_cons_erase h)
  rw [queued, hperm, Multiset.map_cons, queued]

theorem kept_step {s t : State n} {a : Action n} (h : Kept s) (hquiet : Undisturbed s a)
    (hstep : step s a = some t) : Kept t := by
  cases moves_of_step hstep with
  | launches i pid quantum hi hpid =>
      rcases h.split hi with ⟨rest, hatt, hdues⟩
      rw [Call.dues, Multiset.coe_nil, zero_add] at hatt
      have hnew := hatt.start (c := ⟨pid, s.nextCall, true, .running⟩) (child?_none hpid) rfl
      change Attended (dues (Function.update s.calls i _) s.queue) _
      rw [hdues, Call.dues, coe_cons_add, Multiset.coe_nil, zero_add]
      exact hnew
  | resumes i pid quantum hi hpid =>
      rcases h.split hi with ⟨rest, hatt, hdues⟩
      rw [Call.dues, Multiset.coe_nil, zero_add, queued_erase hpid, Multiset.add_cons] at hatt
      change Attended (dues (Function.update s.calls i _) (s.queue.erase pid)) _
      rw [hdues, Call.dues, coe_cons_add, Multiset.coe_nil, zero_add]
      exact hatt.renumber s.nextCall
  | begins i commands last hi =>
      rcases h.split hi with ⟨rest, hatt, hdues⟩
      change Attended (dues (Function.update s.calls i _) s.queue) _
      rw [hdues, Call.dues, List.map_nil, ite_self]
      exact hatt
  | abandons i call left background pids hi =>
      rcases h.split hi with ⟨rest, hatt, hdues⟩
      change Attended (dues (Function.update s.calls i .outside) s.queue) _
      rw [hdues, Call.dues, Multiset.coe_nil, zero_add]
      exact hatt.of_le (Multiset.le_add_left _ _)
  | forks i call left background pids pid hi hpid =>
      rcases h.split hi with ⟨rest, hatt, hdues⟩
      rcases forked_eq (start s call pid !background) i call left background (pids ++ [pid]) with
        ⟨c, hc, hcalls, hqueue, hchildren⟩
      rw [Kept, hcalls, hqueue, hchildren]
      change Attended (dues (Function.update s.calls i c) s.queue) _
      rw [hdues, hc]
      rw [Call.dues] at hatt
      cases background with
      | true => exact hatt.add (child?_none hpid)
      | false =>
          have hnew := hatt.start (c := ⟨pid, call, true, .running⟩) (child?_none hpid) rfl
          rw [← coe_cons_add] at hnew
          have hperm : (((pids ++ [pid]).map (·, some call) : List Due) : Multiset Due)
              = ((pid, some call) :: pids.map (·, some call) : List Due) := by
            rw [List.map_append]
            exact Multiset.coe_eq_coe.mpr List.perm_append_comm
          rw [if_neg Bool.false_ne_true, hperm]
          exact hnew
  | fails i call pid quantum hi hpid =>
      exact absurd hpid (h.found hi List.mem_cons_self).1
  | takes i call pid quantum c status hi hpid =>
      rcases h.split hi with ⟨rest, hatt, hdues⟩
      rcases child?_some hpid with ⟨-, rfl⟩
      rw [Call.dues, coe_cons_add, Multiset.coe_nil, zero_add] at hatt
      change Attended (dues (Function.update s.calls i .outside) s.queue) _
      rw [hdues, Call.dues, Multiset.coe_nil, zero_add]
      exact hatt.take
  | preempts i call pid quantum hi =>
      rcases h.split hi with ⟨rest, hatt, hdues⟩
      rw [Call.dues, coe_cons_add, Multiset.coe_nil, zero_add] at hatt
      change Attended (dues (Function.update s.calls i .outside) (s.queue ++ [pid])) _
      rw [hdues, Call.dues, Multiset.coe_nil, zero_add, queued_append, Multiset.add_cons]
      exact hatt.release.setStatus pid (.stopped true)
  | loses i call pid rest hi hpid =>
      exact absurd hpid (h.found hi List.mem_cons_self).1
  | waits i call pid pids c status hi hpid =>
      rcases h.split hi with ⟨rest, hatt, hdues⟩
      rcases child?_some hpid with ⟨-, rfl⟩
      rcases waited_eq (take s c (some call)) i call pids (some status) with
        ⟨d, hd, hcalls, hqueue, hchildren⟩
      rw [Kept, hcalls, hqueue, hchildren]
      change Attended (dues (Function.update s.calls i d) s.queue) _
      rw [hdues, hd]
      rw [Call.dues, List.map_cons, coe_cons_add] at hatt
      exact hatt.take
  | reaps i pid c hi hpid =>
      rcases child?_some hpid with ⟨hc, rfl⟩
      exact h.remove (h.not_due hc (hquiet c hc rfl))
  | changes _ pid status ha => exact h.setStatus pid status

/-! ## What is delivered -/

theorem Delivered.answer {s : State n} (h : Delivered s) (i : Fin n) (call : Nat)
    (r : ExecutionResult) : Delivered (answer s i call (some r)) where
  taken := h.taken
  failed := h.failed
  abandoned := h.abandoned
  results := by
    intro x hx
    rcases List.mem_append.mp hx with hx | hx
    · exact h.results x hx
    · rw [List.mem_singleton.mp hx]
      exact nofun

theorem delivered_take_iff {s : State n} (h : Delivered s) {c : Child} {taker : Option Nat} :
    Delivered (take s c taker) ↔ (c.awaited = true → taker = some c.caller) := by
  constructor
  · exact fun ht => ht.taken ⟨c, taker⟩ (List.mem_append_right _ List.mem_cons_self)
  · intro htaker
    refine ⟨fun r hr => ?_, h.failed, h.abandoned, h.results⟩
    rcases List.mem_append.mp hr with hr | hr
    · exact h.taken r hr
    · rw [List.mem_singleton.mp hr]
      exact htaker

theorem Delivered.waited {s : State n} (h : Delivered s) (i : Fin n) (call : Nat)
    (rest : List Nat) (status : Lifecycle.WaitStatus) :
    Delivered (waited s i call rest (some status)) := by
  rw [Waits.waited]
  split_ifs
  · exact h.answer i call (Lifecycle.resultOf status)
  · exact ⟨h.taken, h.failed, h.abandoned, h.results⟩

theorem Delivered.forked {s : State n} (h : Delivered s) (i : Fin n) (call left : Nat)
    (background : Bool) (pids : List Nat) : Delivered (forked s i call left background pids) := by
  rw [Waits.forked]
  split_ifs
  · exact ⟨h.taken, h.failed, h.abandoned, h.results⟩
  · exact h.answer i call { success := true }
  · exact ⟨h.taken, h.failed, h.abandoned, h.results⟩

/-- As long as everything was delivered, a step delivers exactly if it is
    undisturbed. -/
theorem delivered_step_iff {s t : State n} {a : Action n} (h : Kept s) (hs : Delivered s)
    (hstep : step s a = some t) : Delivered t ↔ Undisturbed s a := by
  have hsame {u : State n} (ht : u.taken = s.taken) (hf : u.failed = s.failed)
      (ha : u.abandoned = s.abandoned) (hr : u.results = s.results) : Delivered u :=
    ⟨ht ▸ hs.taken, hf ▸ hs.failed, ha ▸ hs.abandoned, hr ▸ hs.results⟩
  cases moves_of_step hstep with
  | launches i pid quantum hi hpid => exact iff_of_true (hsame rfl rfl rfl rfl) trivial
  | resumes i pid quantum hi hpid => exact iff_of_true (hsame rfl rfl rfl rfl) trivial
  | begins i commands last hi => exact iff_of_true (hsame rfl rfl rfl rfl) trivial
  | abandons i call left background pids hi =>
      have hleft : (abandon s i call background pids).abandoned
          = if background then [] else pids := by
        rw [abandon, hs.abandoned, List.nil_append]
      have hrest : Delivered (abandon s i call background pids) ↔
          (if background then [] else pids) = [] := by
        refine ⟨fun ht => hleft ▸ ht.abandoned, fun hnil => ?_⟩
        have hanswer := hs.answer i call {}
        exact ⟨hanswer.taken, hanswer.failed, hleft.trans hnil, hanswer.results⟩
      rw [hrest, Undisturbed, hi]
      cases background with
      | true => exact iff_of_true rfl fun _ _ _ h => nomatch h
      | false =>
          refine ⟨fun hnil c l p heq => ?_, fun hnil => hnil call (left + 1) pids rfl⟩
          rw [← (Call.forking.inj heq).2.2.2]
          exact hnil
  | forks i call left background pids pid hi hpid =>
      refine iff_of_true (Delivered.forked ?_ i call left background _) trivial
      exact hsame rfl rfl rfl rfl
  | fails i call pid quantum hi hpid =>
      exact absurd hpid (h.found hi List.mem_cons_self).1
  | takes i call pid quantum c status hi hpid =>
      have hcaller := (h.found hi List.mem_cons_self).2 c hpid
      refine iff_of_true (Delivered.answer ?_ i call _) trivial
      exact (delivered_take_iff hs).mpr fun _ => congrArg some hcaller.symm
  | preempts i call pid quantum hi =>
      have hanswer : Delivered (answer (setStatus s pid (.stopped true)) i call
          (some { preempted := true })) :=
        (hsame (u := setStatus s pid (.stopped true)) rfl rfl rfl rfl).answer i call _
      refine iff_of_true ?_ trivial
      exact ⟨hanswer.taken, hanswer.failed, hanswer.abandoned, hanswer.results⟩
  | loses i call pid rest hi hpid =>
      exact absurd hpid (h.found hi List.mem_cons_self).1
  | waits i call pid pids c status hi hpid =>
      have hcaller := (h.found hi List.mem_cons_self).2 c hpid
      refine iff_of_true (Delivered.waited ?_ i call pids status) trivial
      exact (delivered_take_iff hs).mpr fun _ => congrArg some hcaller.symm
  | reaps i pid c hi hpid =>
      rcases child?_some hpid with ⟨hc, rfl⟩
      rw [delivered_take_iff hs, Undisturbed]
      constructor
      · intro hback d hd hpid
        rw [h.eq_of_pid hd hc hpid]
        cases hawaited : c.awaited with
        | true => exact nomatch hback hawaited
        | false => rfl
      · intro hquiet hawaited
        exact absurd ((hquiet c hc rfl).symm.trans hawaited) Bool.false_ne_true
  | changes _ pid status ha =>
      rcases ha with rfl | rfl | ⟨st, rfl⟩ <;> exact iff_of_true (hsame rfl rfl rfl rfl) trivial

theorem delivered_init : Delivered (init (n := n)) where
  taken := fun _ h => nomatch h
  failed := rfl
  abandoned := rfl
  results := fun _ h => nomatch h

theorem kept_init : Kept (init (n := n)) := by
  have hzero : dues (init (n := n)).calls (init (n := n)).queue = 0 :=
    (congrArg (· + queued []) (Finset.sum_eq_zero fun _ _ => rfl)).trans (add_zero _)
  rw [Kept, hzero]
  exact ⟨List.nodup_nil, Multiset.nodup_zero, fun _ h => absurd h (Multiset.notMem_zero _)⟩

/-- In every run of any number of threads, every status is delivered
    throughout exactly if no step disturbs that. -/
theorem delivered_iff (as : List (Action n)) :
    Always step Delivered (init (n := n)) as ↔ Along step Undisturbed (init (n := n)) as := by
  refine always_iff_along (I := fun s => Delivered s → Kept s) ?_ ?_ as (fun _ => kept_init)
    delivered_init
  · intro s a t hi hs hstep ht
    exact kept_step (hi hs) ((delivered_step_iff (hi hs) hs hstep).mp ht) hstep
  · intro s a t hi hs hstep
    exact delivered_step_iff (hi hs) hs hstep

/-- `reapZombies` takes the status of a job and that of a pipeline's last
    command, which both ended well. The job fails, and the result of the
    pipeline comes from nowhere. -/
theorem stolen : ∃ (as : List (Action 3)) (t : State 3), run step init as = some t ∧
    t.failed = [0, 1] ∧ t.results = [(0, some {}), (1, none)] ∧
      ¬ Always step Delivered init as := by
  let cmd : Command := { executable := ascii "/a", arguments := [ascii "/a"] }
  let as : List (Action 3) :=
    [.launch 0 7 false, .pipeline 1 [cmd, cmd], .fork 1 (some 8), .fork 1 (some 9),
      .ends 7 (.exited 0), .ends 8 (.exited 0), .ends 9 (.exited 0), .reap 2 7, .reap 2 9,
      .wait 0, .wait 1, .wait 1]
  have hrun : (run step init as).map (fun t => (t.failed, t.results))
      = some ([0, 1], [(0, some {}), (1, none)]) := by decide
  rcases Option.map_eq_some_iff.mp hrun with ⟨t, ht, hshown⟩
  rcases Prod.mk.inj hshown with ⟨hfailed, hresults⟩
  refine ⟨as, t, ht, hfailed, hresults, fun h => ?_⟩
  have hnone := (always_end h ht).failed
  rw [hfailed] at hnone
  exact absurd hnone (List.cons_ne_nil 0 [1])

end Waits

end Isolyx
