import Isolyx.Core.SubmitHandler

/-!
# Refused Submissions

The six calls in the `try` block share one `catch`, and that undoes none of
them. So what an error leaves behind is what the calls before it did, and of
these only the first one may fail before anything is there: from the moment it
has opened the source file, there is always a file of the job.

Once the compiler is through, it is the binary, which nobody removes after that
(`attempt_invariant`). If the compiler fails, it is the source, which is only
removed after it. Hence an error leaves no trace exactly if the source could
not be opened, or if there is no call that throws (`noTrace_iff`).

## Main definitions

* `NoTrace`: An error comes with the state before the request.
* `Present`: A file is there.

## Theorems

* `attempt_invariant`: What every call preserves, an attempt preserves.
* `attempt_throws`: A call that throws makes the attempt throw.
* `attempt_quiet`: An attempt throws only if one of its calls does.
* `trace_of_present`: A file of the job is a trace.
* `binary_stays`: After the compiler, the binary stays.
* `tryBlock_present`: Once the source is written, there is a file of the job.
* `noTrace_of_unopened`: A source that is not opened leaves nothing.
* `trace_of_written`: Past the write of the source, whatever throws leaves a trace.
* `noTrace_iff`: When an error leaves no trace.
* `trace_of_bad_program`: A program that does not compile leaves one.
-/

namespace Isolyx

namespace SubmitHandler

open JsonText (Value)

/-- An error comes with the directory, the map and the lines as they were
    before the request. -/
def NoTrace (s : State) (r : State × Option Response) : Prop :=
  r.2.isSome → r.1.files = s.files ∧ r.1.pendingRequests = s.pendingRequests ∧
    r.1.delivered = s.delivered

/-- A file is there. -/
def Present (name : List Char) (s : State) : Prop := (s.files name).isSome

theorem sourceFile_ne_binFile (jobId : List Char) : sourceFile jobId ≠ binFile jobId := by
  intro h
  have hend := List.append_cancel_left h
  exact absurd hend (by decide)

/-! ## Files that are written and removed -/

theorem setFile_same (s : State) (name : List Char) (content : Option Bytes) :
    (setFile s name content).files name = content := by
  simp only [setFile, Function.update_self]

theorem setFile_other {s : State} {name other : List Char} (h : other ≠ name)
    (content : Option Bytes) : (setFile s name content).files other = s.files other := by
  simp only [setFile, Function.update_of_ne h]

theorem Present.setFile {s : State} {name other : List Char} (h : other ≠ name)
    (hs : Present other s) (content : Option Bytes) : Present other (setFile s name content) := by
  rw [Present, setFile_other h]
  exact hs

theorem Present.leave {s : State} {name other : List Char} (h : other ≠ name)
    (hs : Present other s) (content : Option Bytes) : Present other (leave s name content) := by
  cases content with
  | none => exact hs
  | some content => exact hs.setFile h (some content)

/-! ## Attempts -/

theorem attempt_cons_throw {call : State → Result} {s t : State} (h : call s = (t, true))
    (rest : List (State → Result)) : attempt (call :: rest) s = (t, true) := by
  simp only [attempt, h]

theorem attempt_cons_ok {call : State → Result} {s t : State} (h : call s = (t, false))
    (rest : List (State → Result)) : attempt (call :: rest) s = attempt rest t := by
  simp only [attempt, h]

/-- What every call preserves, an attempt preserves. -/
theorem attempt_invariant {P : State → Prop} {calls : List (State → Result)}
    (hcalls : ∀ call ∈ calls, ∀ s, P s → P (call s).1) {s : State} (hs : P s) :
    P (attempt calls s).1 := by
  induction calls generalizing s with
  | nil => exact hs
  | cons call rest ih =>
      have hnext := hcalls call List.mem_cons_self s hs
      cases hcall : call s with
      | mk t thrown =>
          rw [hcall] at hnext
          cases thrown with
          | true => rwa [attempt_cons_throw hcall]
          | false =>
              rw [attempt_cons_ok hcall]
              exact ih (fun c hc => hcalls c (List.mem_cons_of_mem call hc)) hnext

/-- A call that throws in every state makes an attempt throw. -/
theorem attempt_throws {calls : List (State → Result)} (call : State → Result)
    (hmem : call ∈ calls) (hcall : ∀ s, (call s).2 = true) (s : State) :
    (attempt calls s).2 = true := by
  induction calls generalizing s with
  | nil => exact absurd hmem List.not_mem_nil
  | cons c rest ih =>
      cases hc : c s with
      | mk t thrown =>
          cases thrown with
          | true => rw [attempt_cons_throw hc]
          | false =>
              rw [attempt_cons_ok hc]
              rcases List.mem_cons.mp hmem with rfl | hrest
              · exact absurd (hcall s) (by simp only [hc, Bool.false_eq_true, not_false_eq_true])
              · exact ih hrest t

/-- An attempt throws only if one of its calls does. -/
theorem attempt_quiet {calls : List (State → Result)}
    (hcalls : ∀ call ∈ calls, ∀ s, (call s).2 = false) (s : State) :
    (attempt calls s).2 = false := by
  induction calls generalizing s with
  | nil => rfl
  | cons c rest ih =>
      have hquiet := hcalls c List.mem_cons_self s
      cases hc : c s with
      | mk t thrown =>
          rw [hc] at hquiet
          obtain rfl : thrown = false := hquiet
          rw [attempt_cons_ok hc]
          exact ih (fun d hd => hcalls d (List.mem_cons_of_mem c hd)) t

/-! ## What the handler leaves -/

/-- The answer to a body with a code, by what the attempt came to. -/
theorem handle_accepted {host : Host} {jobId : List Char} {body code : Value} {s : State}
    (h : accepted body = some code) :
    handle host jobId body s = ((attempt (tryBlock host jobId code) s).1,
      if (attempt (tryBlock host jobId code) s).2 then some failed else none) := by
  simp only [handle, h]
  cases attempt (tryBlock host jobId code) s with
  | mk t thrown => cases thrown <;> rfl

/-- A file of the job that was not there before is a trace. -/
theorem trace_of_present {name : List Char} {s : State} {r : State × Option Response}
    (hfresh : s.files name = none) (hleft : Present name r.1) (herror : r.2.isSome) :
    ¬ NoTrace s r := by
  intro h
  rw [Present, (h herror).1, hfresh] at hleft
  exact Bool.false_ne_true hleft

theorem noTrace_of_unopened {host : Host} {jobId : List Char} {body code : Value} {s : State}
    (hacc : accepted body = some code) (h : writeSource host jobId code s = (s, true)) :
    NoTrace s (handle host jobId body s) := by
  rw [handle_accepted hacc, tryBlock, attempt_cons_throw h]
  exact fun _ => ⟨rfl, rfl, rfl⟩

/-- After the compiler, the binary stays. -/
theorem binary_stays (host : Host) (jobId : List Char) {s : State}
    (hs : Present (binFile jobId) s) :
    Present (binFile jobId) (attempt [unlinkSource host jobId, openPipe host,
      writeLine host jobId, closePipe host, register jobId] s).1 := by
  refine attempt_invariant (fun call hcall t ht => ?_) hs
  simp only [List.mem_cons, List.not_mem_nil, or_false] at hcall
  rcases hcall with rfl | rfl | rfl | rfl | rfl
  · rw [unlinkSource]
    split
    · exact ht
    · exact ht.setFile (sourceFile_ne_binFile jobId).symm none
  · exact ht
  · rw [writeLine]
    split <;> exact ht
  · exact ht
  · exact ht

/-- Once the source is written, there is a file of the job, whatever throws. -/
theorem tryBlock_present {host : Host} (jobId text : List Char) (s : State)
    (h : host.throws .writeSource = false) :
    let t := (attempt (tryBlock host jobId (.string text)) s).1
    Present (sourceFile jobId) t ∨ Present (binFile jobId) t := by
  have hwrite : writeSource host jobId (.string text) s
      = (setFile s (sourceFile jobId) (some (Utf8.encode text)), false) := by
    simp only [writeSource, h, Bool.false_eq_true, if_false]
  have hsource : Present (sourceFile jobId)
      (setFile s (sourceFile jobId) (some (Utf8.encode text))) := by
    rw [Present, setFile_same, Option.isSome_some]
  rw [tryBlock, attempt_cons_ok hwrite]
  cases hthrow : host.throws .compile with
  | true =>
      have hcompile (u : State) :
          compile host jobId u = (leave u (binFile jobId) host.partialBinary, true) := by
        rw [compile, if_pos hthrow]
      rw [attempt_cons_throw (hcompile _)]
      exact .inl (hsource.leave (sourceFile_ne_binFile jobId) host.partialBinary)
  | false =>
      have hcompile (u : State) :
          compile host jobId u = (setFile u (binFile jobId) (some host.binary), false) := by
        rw [compile, hthrow, if_neg Bool.false_ne_true]
      rw [attempt_cons_ok (hcompile _)]
      refine .inr (binary_stays host jobId ?_)
      rw [Present, setFile_same, Option.isSome_some]

/-- Whichever call the host makes throw, the attempt does. -/
theorem tryBlock_throws {host : Host} (jobId text : List Char) {call : Call}
    (h : host.throws call = true) (s : State) :
    (attempt (tryBlock host jobId (.string text)) s).2 = true := by
  cases call with
  | writeSource =>
      refine attempt_throws (writeSource host jobId (.string text))
        (by simp only [tryBlock, List.mem_cons, true_or]) (fun t => ?_) s
      simp only [writeSource, h, if_true]
  | compile =>
      refine attempt_throws (compile host jobId)
        (by simp only [tryBlock, List.mem_cons, true_or, or_true]) (fun t => ?_) s
      simp only [compile, h, if_true]
  | unlinkSource =>
      refine attempt_throws (unlinkSource host jobId)
        (by simp only [tryBlock, List.mem_cons, true_or, or_true]) (fun t => ?_) s
      simp only [unlinkSource, h, if_true]
  | openPipe =>
      exact attempt_throws (openPipe host)
        (by simp only [tryBlock, List.mem_cons, true_or, or_true]) (fun _ => h) s
  | writeLine =>
      refine attempt_throws (writeLine host jobId)
        (by simp only [tryBlock, List.mem_cons, true_or, or_true]) (fun t => ?_) s
      simp only [writeLine, h, if_true]
  | closePipe =>
      exact attempt_throws (closePipe host)
        (by simp only [tryBlock, List.mem_cons, true_or, or_true]) (fun _ => h) s

/-- An attempt throws nothing of its own. -/
theorem tryBlock_quiet {host : Host} (jobId text : List Char)
    (h : ∀ call, host.throws call = false) (s : State) :
    (attempt (tryBlock host jobId (.string text)) s).2 = false := by
  refine attempt_quiet (fun call hcall t => ?_) s
  simp only [tryBlock, List.mem_cons, List.not_mem_nil, or_false] at hcall
  rcases hcall with rfl | rfl | rfl | rfl | rfl | rfl | rfl
  · simp only [writeSource, h, Bool.false_eq_true, if_false]
  · simp only [compile, h, Bool.false_eq_true, if_false]
  · simp only [unlinkSource, h, Bool.false_eq_true, if_false]
  · exact h .openPipe
  · simp only [writeLine, h, Bool.false_eq_true, if_false]
  · exact h .closePipe
  · rfl

theorem noTrace_of_quiet {host : Host} {jobId text : List Char} {body : Value} {s : State}
    (hacc : accepted body = some (.string text)) (h : ∀ call, host.throws call = false) :
    NoTrace s (handle host jobId body s) := by
  intro herror
  rw [handle_accepted hacc, tryBlock_quiet jobId text h] at herror
  exact absurd herror Bool.false_ne_true

/-- Past the write of the source, whatever throws leaves a trace. -/
theorem trace_of_written {host : Host} {jobId text : List Char} {body : Value} {s : State}
    (hsource : s.files (sourceFile jobId) = none) (hbinary : s.files (binFile jobId) = none)
    (hacc : accepted body = some (.string text)) (hwrite : host.throws .writeSource = false)
    {call : Call} (hcall : host.throws call = true) :
    ¬ NoTrace s (handle host jobId body s) := by
  have herror : (handle host jobId body s).2.isSome := by
    rw [handle_accepted hacc, tryBlock_throws jobId text hcall]
    rfl
  have hleft := tryBlock_present jobId text s hwrite
  have hstate : (handle host jobId body s).1
      = (attempt (tryBlock host jobId (.string text)) s).1 := by
    rw [handle_accepted hacc]
  rw [← hstate] at hleft
  rcases hleft with hleft | hleft
  · exact trace_of_present hsource hleft herror
  · exact trace_of_present hbinary hleft herror

/-- A write of the source that fails once it has opened the file leaves a trace. -/
theorem trace_of_opened {host : Host} {jobId text : List Char} {body : Value} {s : State}
    (hsource : s.files (sourceFile jobId) = none) (hacc : accepted body = some (.string text))
    (hwrite : host.throws .writeSource = true) {content : Bytes}
    (hpart : host.partialSource = some content) : ¬ NoTrace s (handle host jobId body s) := by
  have hthrow : writeSource host jobId (.string text) s
      = (setFile s (sourceFile jobId) (some content), true) := by
    simp only [writeSource, hwrite, if_true, hpart, leave]
  have hresult : handle host jobId body s
      = (setFile s (sourceFile jobId) (some content), some failed) := by
    rw [handle_accepted hacc, tryBlock, attempt_cons_throw hthrow, if_pos rfl]
  rw [hresult]
  refine trace_of_present hsource ?_ rfl
  rw [Present, setFile_same, Option.isSome_some]

/-- An error leaves no trace exactly if the body has no text for a source, the
    source could not be opened, or no call throws at all. No file has the name
    of a fresh identifier. -/
theorem noTrace_iff {host : Host} {jobId : List Char} {s : State}
    (hsource : s.files (sourceFile jobId) = none) (hbinary : s.files (binFile jobId) = none)
    (body : Value) :
    NoTrace s (handle host jobId body s) ↔
      (∀ text, accepted body ≠ some (.string text)) ∨
        (host.throws .writeSource ∧ host.partialSource = none) ∨
        ∀ call, host.throws call = false := by
  constructor
  · intro h
    by_contra hnone
    push Not at hnone
    rcases hnone with ⟨⟨text, hacc⟩, hopen, call, hcall⟩
    rw [ne_eq, Bool.not_eq_false] at hcall
    cases hwrite : host.throws .writeSource with
    | false => exact trace_of_written hsource hbinary hacc hwrite hcall h
    | true =>
        cases hpart : host.partialSource with
        | none => exact hopen hwrite hpart
        | some content => exact trace_of_opened hsource hacc hwrite hpart h
  · intro h
    cases hacc : accepted body with
    | none =>
        simp only [handle, hacc]
        exact fun _ => ⟨rfl, rfl, rfl⟩
    | some code =>
        rcases h with htext | ⟨hwrite, hpart⟩ | hquiet
        · -- A code that is no text is refused by the first call.
          refine noTrace_of_unopened hacc ?_
          cases code with
          | string text => exact absurd hacc (htext text)
          | null | bool _ | number _ | array _ | object _ => rfl
        · refine noTrace_of_unopened hacc ?_
          cases code with
          | string text => simp only [writeSource, hwrite, if_true, hpart, leave]
          | null | bool _ | number _ | array _ | object _ => rfl
        · cases code with
          | string text => exact noTrace_of_quiet hacc hquiet
          | null | bool _ | number _ | array _ | object _ => exact noTrace_of_unopened hacc rfl

/-! ## On a host -/

/-- A program of one text. -/
def cppBody (text : String) : Value :=
  .object [("code".toList, .string text.toList), ("language".toList, .string "cpp".toList)]

def emptyHanded : State where
  files := fun _ => none
  pendingRequests := []
  delivered := []

/-- A host on which one call throws, and leaves nothing. -/
def hostThrowing (call : Call) : Host where
  throws := fun c => c = call
  partialSource := none
  binary := []
  partialBinary := none

/-- A source that cannot be opened. -/
theorem noTrace_unopened :
    (handle (hostThrowing .writeSource) "1".toList (cppBody "int") emptyHanded).2 = some failed ∧
      NoTrace emptyHanded
        (handle (hostThrowing .writeSource) "1".toList (cppBody "int") emptyHanded) :=
  ⟨by decide, (noTrace_iff rfl rfl (cppBody "int")).mpr (.inr (.inl ⟨by decide, rfl⟩))⟩

/-- A program that does not compile leaves its source behind. -/
theorem trace_of_bad_program :
    let r := handle (hostThrowing .compile) "1".toList (cppBody "int") emptyHanded
    r.2 = some failed ∧ r.1.files "job_1.cpp".toList = some (Utf8.encode "int".toList) ∧
      ¬ NoTrace emptyHanded r := by
  refine ⟨by decide, by decide, fun h => ?_⟩
  have hsame := congrFun (h (by decide)).1 "job_1.cpp".toList
  exact absurd hsame (by decide)

end SubmitHandler

end Isolyx
