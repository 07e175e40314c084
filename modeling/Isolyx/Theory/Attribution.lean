import Isolyx.Core.SharedTmp

/-!
# Attribution of Output

Whose bytes the engine returns for a job. It returns what the file of that name
holds in the end, and the name says nothing of who wrote it. A file of an
earlier run has the name too, and is truncated only if the child gets as far as
opening it; under a redirection it never opens the first one. And the file lies
in a directory that every other sandbox has as well: a neighbour may write to
it, put another file in its place, or make a link of it.

The first moment that counts is the one when the child is past an output,
having opened it or not: from there on nobody truncates it again. If by then
the name is no link and stands for no file with bytes of others, it stays so
as long as no neighbour writes to the file, nobody leaves a gap in it, which
would be filled up with zeros, and nobody puts something else in its place.
Whatever takes bytes or names away does no harm, and neither does a new file, so
that the children of other jobs and the engine, which only do such things, need
not be watched.

## Main definitions

* `OnlyBy`: The bytes were all written by the job's processes.
* `Attributed`: So were all bytes returned for any job.
* `Plain`: Neither `/tmp` nor the name of the output is a link.
* `Clean`: The name stands for no file with bytes of others either.
* `Collects`: The engine will read the file as an output, or is reading it.
* `Fewer`: A change that adds no bytes, and no names but for empty files.
* `Considerate`: The step keeps others' bytes out of the outputs of a job.

## Theorems

* `openTrunc_clean`: An output the child has opened is clean.
* `host_file`: The engine reads the file the name stands for.
* `kept_moves`: A considerate step keeps what is known of the outputs.
* `considerate_alone`: A job by itself that only writes is considerate.
* `reads_file`: Undisturbed, the engine reads the file to its end.
* `leftover_returned`: What the child did not open is returned as it was.
* `attributed_of_considerate`: A run of such steps returns only own bytes.
* `redirected_returns_leftover`: A redirection returns an earlier run's output.
-/

namespace Isolyx

namespace SharedTmp

open PathWalk (walk)
open Rootfs (Loc Path maxSymlinks hostPath)

variable {setup : Setup} {s t : State} {a : Action} {f g : Files} {k : Nat} {o : Output}

/-- The bytes were all written by the job's own processes. -/
def OnlyBy (k : Nat) (bytes : List Written) : Prop := ∀ b ∈ bytes, b.author = some k

/-- What is returned for a job was written by its own processes. -/
def Attributed (s : State) : Prop := ∀ k o, OnlyBy k ((s.jobs k).result o)

/-- Neither `/tmp` nor the name of the output is a link. -/
structure Plain (f : Files) (k : Nat) (o : Output) : Prop where
  tmp : ∀ target, f.lookup [ascii "tmp"] ≠ some (.link target)
  name : ∀ target, f.lookup (o.loc k) ≠ some (.link target)

/-- The name of the output stands for no file with bytes of others. -/
def Vacant (f : Files) (k : Nat) (o : Output) : Prop :=
  ∀ i, f.lookup (o.loc k) = some (.file i) → OnlyBy k (f.data i)

structure Clean (f : Files) (k : Nat) (o : Output) : Prop where
  plain : Plain f k o
  vacant : Vacant f k o

/-- The child is past the output, and the engine has not yet opened it. -/
def Phase.awaits (phase : Phase) (o : Output) : Bool :=
  match o, phase with
  | .out, .outDone | .out, .running | .out, .opening .out => true
  | .err, .running | .err, .opening _ | .err, .reading .out _ => true
  | _, _ => false

/-- The file is an output of a job that awaits the engine, or that it is reading. -/
def Collects (s : State) (j : Nat) (o : Output) (i : Nat) : Prop :=
  ((s.jobs j).phase.awaits o = true ∧ s.files.lookup (o.loc j) = some (.file i)) ∨
    (s.jobs j).phase = .reading o i

/-- A file operation of a job keeps others' bytes out of the outputs that await
    the engine, or that it is reading, and leaves no gap in them. -/
def Spares (s : State) (k : Nat) : FileOp → Prop
  | .write i pos bytes => ∀ j o, Collects s j o i →
      bytes = [] ∨ j = k ∧ pos ≤ (s.files.data i).length
  | .truncate i len => ∀ j o, Collects s j o i → len ≤ (s.files.data i).length
  | .link p i => ∀ j o, (s.jobs j).phase.awaits o = true → p = o.loc j →
      OnlyBy j (s.files.data i)
  | .symlink p _ => ∀ j o, (s.jobs j).phase.awaits o = true → p ≠ [ascii "tmp"] ∧ p ≠ o.loc j
  | _ => True

/-- A child that gets past an output has opened a file there that is no link,
    or leaves none with bytes of others, and file operations spare the outputs. -/
def Considerate (setup : Setup) (s : State) : Action → Prop
  | .openForWriting k o ok => Plain s.files k o ∧
      (setup.redirects k o = true ∨ openOutput setup s k o ok = none → Vacant s.files k o)
  | .ends k => ∀ o, (s.jobs k).phase.awaits o = false → Clean s.files k o
  | .operate k op => Spares s k op
  | _ => True

/-! ## Changes that add nothing -/

/-- A change that adds no bytes to a file, and no names but for directories and
    empty files. -/
structure Fewer (f g : Files) : Prop where
  node : ∀ p x, g.lookup p = some x →
    f.lookup p = some x ∨ x = .dir ∨ ∃ i, x = .file i ∧ g.data i = []
  data : ∀ i, ∀ b ∈ g.data i, b ∈ f.data i

theorem Fewer.refl (f : Files) : Fewer f f := ⟨fun _ _ h => .inl h, fun _ _ h => h⟩

theorem Fewer.onlyBy (h : Fewer f g) {i : Nat} (hi : OnlyBy k (f.data i)) :
    OnlyBy k (g.data i) := fun b hb => hi b (h.data i b hb)

theorem Fewer.plain (h : Fewer f g) (hf : Plain f k o) : Plain g k o := by
  have hlink : ∀ p target, g.lookup p = some (.link target) →
      f.lookup p = some (.link target) := by
    intro p target hp
    rcases h.node p _ hp with hsame | hdir | ⟨i, hfile, _⟩
    · exact hsame
    · simp at hdir
    · simp at hfile
  exact ⟨fun target ht => hf.tmp target (hlink _ target ht),
    fun target ht => hf.name target (hlink _ target ht)⟩

theorem Fewer.clean (h : Fewer f g) (hf : Clean f k o) : Clean g k o := by
  refine ⟨h.plain hf.plain, fun i hi => ?_⟩
  rcases h.node _ _ hi with hsame | hdir | ⟨i', hfile, hempty⟩
  · exact h.onlyBy (hf.vacant i hsame)
  · simp at hdir
  · rw [PathWalk.Node.file.injEq] at hfile
    rw [hfile, hempty]
    exact fun b hb => absurd hb List.not_mem_nil

theorem lookup_bind (f : Files) (p q : Loc) (x : Option Node) :
    (f.bind p x).lookup q = if q ≠ [] ∧ q = p then x else f.lookup q := by
  unfold Files.lookup Files.bind
  by_cases hq : q = []
  · simp [hq]
  · by_cases hqp : q = p
    · subst hqp
      simp [hq]
    · simp [hq, hqp]

theorem data_setData (f : Files) (i j : Nat) (content : List Written) :
    (f.setData i content).data j = if j = i then content else f.data j := by
  unfold Files.setData
  exact Function.update_apply f.data i content j

theorem fewer_setData {i : Nat} {content : List Written} (h : ∀ b ∈ content, b ∈ f.data i) :
    Fewer f (f.setData i content) := by
  refine ⟨fun p x hx => .inl hx, fun j b hb => ?_⟩
  rw [data_setData] at hb
  by_cases hj : j = i
  · rw [if_pos hj] at hb
    exact hj ▸ h b hb
  · rwa [if_neg hj] at hb

theorem fewer_bind {p : Loc} {x : Option Node} (h : x = none ∨ x = some .dir) :
    Fewer f (f.bind p x) := by
  refine ⟨fun q y hy => ?_, fun _ _ hb => hb⟩
  rw [lookup_bind] at hy
  by_cases hq : q ≠ [] ∧ q = p
  · rw [if_pos hq] at hy
    rcases h with h | h
    · simp [h] at hy
    · rw [h, Option.some.injEq] at hy
      exact .inr (.inl hy.symm)
  · rw [if_neg hq] at hy
    exact .inl hy

theorem lookup_create (f : Files) (p q : Loc) :
    (f.create p).lookup q = if q ≠ [] ∧ q = p then some (.file f.next) else f.lookup q :=
  lookup_bind _ p q _

theorem data_create (f : Files) (p : Loc) (i : Nat) :
    (f.create p).data i = if i = f.next then [] else f.data i :=
  data_setData f f.next i []

theorem fewer_create (f : Files) (p : Loc) : Fewer f (f.create p) := by
  refine ⟨fun q x hx => ?_, fun i b hb => ?_⟩
  · rw [lookup_create] at hx
    by_cases hq : q ≠ [] ∧ q = p
    · rw [if_pos hq, Option.some.injEq] at hx
      exact .inr (.inr ⟨f.next, hx.symm, by rw [data_create, if_pos rfl]⟩)
    · rw [if_neg hq] at hx
      exact .inl hx
  · rw [data_create] at hb
    by_cases hi : i = f.next
    · rw [if_pos hi] at hb
      exact absurd hb List.not_mem_nil
    · rwa [if_neg hi] at hb

theorem fewer_openTrunc {path : Path} (h : f.openTrunc path = some g) : Fewer f g := by
  unfold Files.openTrunc at h
  split at h
  · split at h
    · rw [Option.some.injEq] at h
      exact h ▸ fewer_setData fun b hb => absurd hb List.not_mem_nil
    · simp at h
  · rw [Option.some.injEq] at h
    exact h ▸ fewer_create f _
  · simp at h

theorem fewer_unlinkAt (base : Loc) (f : Files) (p : Loc) : Fewer f (f.unlinkAt base p) := by
  have hremove : Fewer f (if base <+: p then f.bind (p.drop base.length) none
      else { f with outside := Function.update f.outside p none }) := by
    by_cases hp : base <+: p
    · rw [if_pos hp]
      exact fewer_bind (.inl rfl)
    · rw [if_neg hp]
      exact ⟨fun _ _ h => .inl h, fun _ _ h => h⟩
  unfold Files.unlinkAt
  split
  · exact hremove
  · exact hremove
  · exact .refl f

theorem fewer_unlink (setup : Setup) (f : Files) (k : Nat) (o : Output) :
    Fewer f (unlink setup f k o) := by
  unfold unlink
  split
  · exact fewer_unlinkAt _ _ _
  · exact .refl f

/-! ## Opening an output -/

theorem path_eq (k : Nat) (o : Output) :
    o.path k = [.name (ascii "tmp"), .name (o.name k)] := by
  cases o <;> rfl

/-- How a walk to an output ends in the sandbox, where there are no links. -/
theorem walk_output (h : Plain f k o) :
    (∀ p, walk f.lookup maxSymlinks [] (o.path k) = .found p → p = o.loc k) ∧
      ∀ p, walk f.lookup maxSymlinks [] (o.path k) = .missing p [] → p = o.loc k := by
  have hroot : f.lookup [] = some .dir := rfl
  rw [path_eq]
  rcases PathWalk.walk_two (k := maxSymlinks) hroot h.tmp h.name with hw | hw | hw | hw <;>
    rw [hw] <;> simp [Output.loc]

/-- An output the child has opened is clean. -/
theorem openTrunc_clean (hp : Plain f k o) (h : f.openTrunc (o.path k) = some g) :
    Clean g k o := by
  refine ⟨(fewer_openTrunc h).plain hp, fun i hi => ?_⟩
  have hempty : g.data i = [] := by
    unfold Files.openTrunc at h
    split at h
    · rename_i p hwalk
      have hloc := (walk_output hp).1 p hwalk
      subst hloc
      split at h
      · -- the file was there, and is truncated
        rename_i i' hi'
        rw [Option.some.injEq] at h
        subst h
        have hsame : some (PathWalk.Node.file i') = some (.file i) := hi'.symm.trans hi
        rw [Option.some.injEq, PathWalk.Node.file.injEq] at hsame
        rw [data_setData, if_pos hsame.symm]
      · simp at h
    · -- it is new
      rename_i p hwalk
      have hloc := (walk_output hp).2 p hwalk
      subst hloc
      rw [Option.some.injEq] at h
      subst h
      rw [lookup_create, if_pos ⟨by simp [Output.loc], rfl⟩, Option.some.injEq,
        PathWalk.Node.file.injEq] at hi
      rw [data_create, if_pos hi.symm]
    · simp at h
  rw [hempty]
  exact fun b hb => absurd hb List.not_mem_nil

/-! ## Reading an output -/

theorem host_below (base : Loc) (f : Files) (q : Loc) :
    f.host base (base ++ q) = f.lookup q := by
  rw [Files.host, if_pos (List.prefix_append base q), List.drop_left]

theorem host_above (base : Loc) (f : Files) {i : Nat} (hi : i < base.length) :
    f.host base (base.take i) = some .dir := by
  have hnot : ¬ base <+: base.take i := by
    intro hpre
    have hlen := hpre.length_le
    rw [List.length_take] at hlen
    omega
  rw [Files.host, if_neg hnot, if_pos (List.take_prefix i base)]

/-- The engine comes to the directory, whose own ancestors are directories. -/
theorem walk_base (base : Loc) (f : Files) (path : Path) :
    walk (f.host base) maxSymlinks [] (hostPath base path) =
      walk (f.host base) maxSymlinks base path := by
  have hdirs : ∀ i < base.length, f.host base ([] ++ base.take i) = some .dir := by
    intro i hi
    rw [List.nil_append]
    exact host_above base f hi
  have hend : f.host base ([] ++ base) = some .dir := by
    have hroot : f.host base (base ++ []) = some .dir := host_below base f []
    rwa [List.append_nil] at hroot
  exact PathWalk.walk_down hdirs hend trivial

/-- The engine reads the file the name of the output stands for. -/
theorem host_file (base : Loc) (h : Plain f k o) {p : Loc} {i : Nat}
    (hwalk : walk (f.host base) maxSymlinks [] (hostPath base (o.path k)) = .found p)
    (hi : f.host base p = some (.file i)) : f.lookup (o.loc k) = some (.file i) := by
  have hroot : f.host base base = some .dir := by
    have hbelow : f.host base (base ++ []) = some .dir := host_below base f []
    rwa [List.append_nil] at hbelow
  have htmp : ∀ target, f.host base (base ++ [ascii "tmp"]) ≠ some (.link target) := by
    intro target
    rw [host_below]
    exact h.tmp target
  have hname : ∀ target, f.host base (base ++ [ascii "tmp"] ++ [o.name k]) ≠
      some (.link target) := by
    intro target
    rw [List.append_assoc, host_below]
    exact h.name target
  rw [walk_base, path_eq] at hwalk
  have hloc : p = base ++ o.loc k := by
    rcases PathWalk.walk_two (k := maxSymlinks) hroot htmp hname with hw | hw | hw | hw <;>
      rw [hw] at hwalk <;> simp at hwalk
    exact hwalk.symm
  rwa [hloc, host_below] at hi

/-- Where the name stands for a file, the engine finds it. -/
theorem walk_file (base : Loc) (htmp : f.lookup [ascii "tmp"] = some .dir) {i : Nat}
    (hname : f.lookup (o.loc k) = some (.file i)) :
    walk (f.host base) maxSymlinks [] (hostPath base (o.path k)) = .found (base ++ o.loc k) := by
  have hroot : f.host base base = some .dir := by
    have hbelow : f.host base (base ++ []) = some .dir := host_below base f []
    rwa [List.append_nil] at hbelow
  have htmp' : f.host base (base ++ [ascii "tmp"]) = some .dir := by rwa [host_below]
  have hname' : f.host base (base ++ [ascii "tmp"] ++ [o.name k]) = some (.file i) := by
    rw [List.append_assoc, host_below]
    exact hname
  rw [walk_base, path_eq, PathWalk.walk_enter hroot htmp' trivial,
    PathWalk.walk_enter htmp' hname' trivial, PathWalk.walk_nil, List.append_assoc]
  rfl

/-! ## Steps -/

/-- What is known of the outputs, from the child's opening to the result. -/
structure Kept (s : State) : Prop where
  waiting : ∀ k o, (s.jobs k).phase.awaits o = true → Clean s.files k o
  reading : ∀ k o i, (s.jobs k).phase = .reading o i → OnlyBy k (s.files.data i)
  results : Attributed s

theorem Kept.fewer (hs : Kept s) (h : Fewer s.files g) : Kept { s with files := g } where
  waiting j o hj := h.clean (hs.waiting j o hj)
  reading j o i hj := h.onlyBy (hs.reading j o i hj)
  results := hs.results

theorem jobs_setPhase (s : State) (k j : Nat) (phase : Phase) :
    (setPhase s k phase).jobs j = if j = k then { s.jobs k with phase := phase } else s.jobs j :=
  Function.update_apply s.jobs k _ j

/-- A job goes on, with its outputs in order. -/
theorem Kept.setPhase (hs : Kept s) {phase : Phase}
    (hwaiting : ∀ o, phase.awaits o = true → (s.jobs k).phase.awaits o = false →
      Clean s.files k o)
    (hreading : ∀ o i, phase = .reading o i → OnlyBy k (s.files.data i)) :
    Kept (SharedTmp.setPhase s k phase) where
  waiting j o hj := by
    rw [jobs_setPhase] at hj
    by_cases hjk : j = k
    · rw [if_pos hjk] at hj
      subst hjk
      by_cases hbefore : (s.jobs j).phase.awaits o = true
      · exact hs.waiting j o hbefore
      · exact hwaiting o hj (Bool.not_eq_true _ ▸ hbefore)
    · rw [if_neg hjk] at hj
      exact hs.waiting j o hj
  reading j o i hj := by
    rw [jobs_setPhase] at hj
    by_cases hjk : j = k
    · rw [if_pos hjk] at hj
      exact hjk ▸ hreading o i hj
    · rw [if_neg hjk] at hj
      exact hs.reading j o i hj
  results j o := by
    rw [jobs_setPhase]
    by_cases hjk : j = k
    · rw [if_pos hjk, hjk]
      exact hs.results k o
    · rw [if_neg hjk]
      exact hs.results j o

/-- No gap is left up to the end of the file. -/
theorem gap_eq_nil {old : List Written} {len : Nat} (h : len ≤ old.length) : gap old len = [] := by
  rw [gap, Nat.sub_eq_zero_of_le h, List.replicate_zero]

theorem onlyBy_overwrite {old : List Written} {pos : Nat} (h : OnlyBy k old)
    (hpos : pos ≤ old.length) (bytes : Bytes) : OnlyBy k (overwrite k old pos bytes) := by
  intro b hb
  rw [overwrite, gap_eq_nil hpos, List.append_nil] at hb
  split at hb
  · exact h b hb
  · rw [List.mem_append, List.mem_append, List.mem_map] at hb
    rcases hb with (hb | ⟨v, _, rfl⟩) | hb
    · exact h b (List.mem_of_mem_take hb)
    · rfl
    · exact h b (List.mem_of_mem_drop hb)

theorem onlyBy_resize {old : List Written} {len : Nat} (h : OnlyBy k old)
    (hlen : len ≤ old.length) : OnlyBy k (resize old len) := by
  rw [resize, gap_eq_nil hlen, List.append_nil]
  exact fun b hb => h b (List.mem_of_mem_take hb)

/-- A file gets other bytes, which are the job's own if the file was. -/
theorem onlyBy_setData {i i' : Nat} {content : List Written} (h : OnlyBy k (f.data i'))
    (hnew : i' = i → OnlyBy k (f.data i) → OnlyBy k content) :
    OnlyBy k ((f.setData i content).data i') := by
  rw [data_setData]
  by_cases hi : i' = i
  · rw [if_pos hi]
    exact hnew hi (hi ▸ h)
  · rw [if_neg hi]
    exact h

theorem Clean.setData {i : Nat} {content : List Written} (h : Clean f k o)
    (hnew : f.lookup (o.loc k) = some (.file i) → OnlyBy k (f.data i) → OnlyBy k content) :
    Clean (f.setData i content) k o := by
  refine ⟨⟨h.plain.tmp, h.plain.name⟩, fun i' hi' => ?_⟩
  exact onlyBy_setData (h.vacant i' hi') fun heq => hnew (heq ▸ hi')

/-- A file gets other bytes, which are the own ones of a job it is collected for. -/
theorem Kept.setData (hs : Kept s) {i : Nat} {content : List Written}
    (hnew : ∀ j o, Collects s j o i → OnlyBy j (s.files.data i) → OnlyBy j content) :
    Kept { s with files := s.files.setData i content } where
  waiting j o hj := (hs.waiting j o hj).setData fun hi => hnew j o (.inl ⟨hj, hi⟩)
  reading j o i' hj :=
    onlyBy_setData (hs.reading j o i' hj) fun heq => hnew j o (.inr (heq ▸ hj))
  results := hs.results

/-- What comes to lie under a name is the job's own, and no link. -/
theorem Kept.bind (hs : Kept s) {p : Loc} {x : Node}
    (hlink : ∀ target, x = .link target → ∀ j o, (s.jobs j).phase.awaits o = true →
      p ≠ [ascii "tmp"] ∧ p ≠ o.loc j)
    (hfile : ∀ i, x = .file i → ∀ j o, (s.jobs j).phase.awaits o = true → p = o.loc j →
      OnlyBy j (s.files.data i)) : Kept { s with files := s.files.bind p (some x) } := by
  refine ⟨fun j o hj => ?_, hs.reading, hs.results⟩
  have hclean := hs.waiting j o hj
  refine ⟨⟨fun target ht => ?_, fun target ht => ?_⟩, fun i hi => ?_⟩
  · rw [lookup_bind] at ht
    by_cases hq : [ascii "tmp"] ≠ [] ∧ [ascii "tmp"] = p
    · rw [if_pos hq, Option.some.injEq] at ht
      exact (hlink target ht j o hj).1 hq.2.symm
    · rw [if_neg hq] at ht
      exact hclean.plain.tmp target ht
  · rw [lookup_bind] at ht
    by_cases hq : o.loc j ≠ [] ∧ o.loc j = p
    · rw [if_pos hq, Option.some.injEq] at ht
      exact (hlink target ht j o hj).2 hq.2.symm
    · rw [if_neg hq] at ht
      exact hclean.plain.name target ht
  · rw [lookup_bind] at hi
    by_cases hq : o.loc j ≠ [] ∧ o.loc j = p
    · rw [if_pos hq, Option.some.injEq] at hi
      exact hfile i hi j o hj hq.2.symm
    · rw [if_neg hq] at hi
      exact hclean.vacant i hi

theorem Kept.operate (hs : Kept s) {op : FileOp} (hg : Spares s k op) :
    Kept { s with files := apply k s.files op } := by
  cases op with
  | write i pos bytes =>
      refine hs.setData fun j o hj hold => ?_
      rcases hg j o hj with rfl | ⟨rfl, hpos⟩
      · exact hold
      · exact onlyBy_overwrite hold hpos bytes
  | truncate i len => exact hs.setData fun j o hj hold => onlyBy_resize hold (hg j o hj)
  | create p => exact hs.fewer (fewer_create s.files p)
  | link p i =>
      refine hs.bind (fun target heq => by simp at heq) fun i' heq j o hj hp => ?_
      rw [PathWalk.Node.file.injEq] at heq
      exact heq ▸ hg j o hj hp
  | symlink p target =>
      exact hs.bind (fun _ _ j o hj => hg j o hj) fun i heq => by simp at heq
  | mkdir p => exact hs.fewer (fewer_bind (.inr rfl))
  | remove p => exact hs.fewer (fewer_bind (.inl rfl))

/-- The engine takes over what it reads. -/
theorem Kept.receive (hs : Kept s) {buf : List Written} (hbuf : OnlyBy k buf) :
    Kept (SharedTmp.receive s k o buf) := by
  have hphase : ∀ j, ((SharedTmp.receive s k o buf).jobs j).phase = (s.jobs j).phase := by
    intro j
    by_cases hj : j = k
    · simp [SharedTmp.receive, hj]
    · simp [SharedTmp.receive, Function.update_of_ne hj]
  refine ⟨fun j o' hj => hs.waiting j o' (hphase j ▸ hj),
    fun j o' i hj => hs.reading j o' i (hphase j ▸ hj), fun j o' => ?_⟩
  by_cases hj : j = k
  · subst hj
    by_cases ho : o' = o
    · subst ho
      simp only [SharedTmp.receive, Function.update_self]
      intro b hb
      rcases List.mem_append.mp hb with hb | hb
      · exact hs.results j o' b hb
      · exact hbuf b hb
    · simp only [SharedTmp.receive, Function.update_self, Function.update_of_ne ho]
      exact hs.results j o'
  · simp only [SharedTmp.receive, Function.update_of_ne hj]
    exact hs.results j o'

/-- Opening an output, or passing it, leaves only it to be looked at. -/
theorem awaits_after {o o' : Output} (hafter : o.after.awaits o' = true)
    (hbefore : o.before.awaits o' = false) : o' = o := by
  cases o <;> cases o' <;> first | rfl | simp_all [Output.after, Output.before, Phase.awaits]

theorem openOutput_eq_some {ok : Bool} (h : openOutput setup s k o ok = some f) :
    s.files.openTrunc (setup.target k o) = some f := by
  rw [openOutput, Option.ite_none_right_eq_some] at h
  exact h.2

theorem target_eq (h : setup.redirects k o = false) : setup.target k o = o.path k := by
  cases o with
  | err => rfl
  | out =>
      simp only [Setup.redirects, decide_true, Bool.true_and, Option.isSome_eq_false_iff,
        Option.isNone_iff_eq_none] at h
      simp only [Setup.target, h, Option.getD_none, Output.path]

theorem kept_moves (hs : Kept s) (hg : Considerate setup s a) (h : Moves setup s a t) :
    Kept t := by
  cases h with
  | launches k hp => exact hs.setPhase (by simp [Phase.awaits]) (by simp)
  | opens k o ok f hp hf =>
      have hopen := openOutput_eq_some hf
      refine (hs.fewer (fewer_openTrunc hopen)).setPhase (fun o' hafter hbefore => ?_) ?_
      · have ho := awaits_after hafter (by rw [← hp]; exact hbefore)
        subst ho
        by_cases hr : setup.redirects k o' = true
        · -- another file was opened, and this one is left as it was
          exact (fewer_openTrunc hopen).clean ⟨hg.1, hg.2 (.inl hr)⟩
        · rw [target_eq (Bool.not_eq_true _ ▸ hr)] at hopen
          exact openTrunc_clean hg.1 hopen
      · cases o <;> simp [Output.after]
  | passes k o ok hp hf =>
      refine hs.setPhase (fun o' hafter hbefore => ?_) ?_
      · have ho := awaits_after hafter (by rw [← hp]; exact hbefore)
        subst ho
        exact ⟨hg.1, hg.2 (.inr hf)⟩
      · cases o <;> simp [Output.after]
  | operates k op hp => exact hs.operate hg
  | ends k hp => exact hs.setPhase (fun o _ hbefore => hg o hbefore) (by simp)
  | finds k o p i hp hwalk hi =>
      have hclean := hs.waiting k o (by rw [hp]; cases o <;> rfl)
      refine hs.setPhase (fun o' hafter hbefore => ?_) fun o' i' heq => ?_
      · rw [hp] at hbefore
        cases o <;> cases o' <;> simp [Phase.awaits] at hafter hbefore
      · rw [Phase.reading.injEq] at heq
        exact heq.2 ▸ hclean.vacant i (host_file setup.base hclean.plain hwalk hi)
  | misses k o hp =>
      refine hs.setPhase (fun o' hafter hbefore => ?_) ?_
      · rw [hp] at hbefore
        cases o <;> cases o' <;> simp [Output.next, Phase.awaits] at hafter hbefore
      · cases o <;> simp [Output.next]
  | reads k o i hp =>
      refine hs.receive fun b hb => hs.reading k o i hp b ?_
      exact List.mem_of_mem_drop (List.mem_of_mem_take hb)
  | closes k o i hp =>
      refine (hs.fewer (fewer_unlink setup s.files k o)).setPhase
        (fun o' hafter hbefore => ?_) ?_
      · have hbefore' : (s.jobs k).phase.awaits o' = false := hbefore
        rw [hp] at hbefore'
        cases o <;> cases o' <;> simp [Output.next, Phase.awaits] at hafter hbefore'
      · cases o <;> simp [Output.next]

theorem kept_init (files : Files) : Kept (init files) where
  waiting k o h := by cases o <;> simp [init, Phase.awaits] at h
  reading k o i h := by simp [init] at h
  results k o b hb := absurd hb List.not_mem_nil

/-! ## A job by itself -/

/-- The action is the job's, and its processes do nothing but write to files,
    without a gap. -/
def Solo (k : Nat) (s : State) : Action → Prop
  | .launch j | .openForWriting j _ _ | .ends j | .openForReading j | .read j => j = k
  | .operate j (.write i pos _) => j = k ∧ pos ≤ (s.files.data i).length
  | .operate _ _ => False

/-- No other job is there, and the outputs are clean. -/
structure Lone (k : Nat) (s : State) : Prop where
  others : ∀ j, j ≠ k → (s.jobs j).phase = .absent
  clean : ∀ o, Clean s.files k o

theorem Lone.setPhase (hs : Lone k s) (phase : Phase) :
    Lone k (SharedTmp.setPhase s k phase) where
  others j hj := by
    rw [jobs_setPhase, if_neg hj]
    exact hs.others j hj
  clean := hs.clean

theorem Lone.fewer (hs : Lone k s) (h : Fewer s.files g) : Lone k { s with files := g } :=
  ⟨hs.others, fun o => h.clean (hs.clean o)⟩

theorem lone_moves (hs : Lone k s) (ha : Solo k s a) (h : Moves setup s a t) : Lone k t := by
  cases h with
  | launches j hp | passes j o ok hp hf | ends j hp | finds j o p i hp | misses j o hp =>
      obtain rfl : j = k := ha
      exact hs.setPhase _
  | opens j o ok f hp hf =>
      obtain rfl : j = k := ha
      exact (hs.fewer (fewer_openTrunc (openOutput_eq_some hf))).setPhase _
  | operates j op hp =>
      cases op with
      | write i pos bytes =>
          rcases ha with ⟨rfl, hpos⟩
          exact ⟨hs.others, fun o => (hs.clean o).setData
            fun _ hold => onlyBy_overwrite hold hpos bytes⟩
      | _ => exact absurd ha id
  | reads j o i hp =>
      obtain rfl : j = k := ha
      refine ⟨fun j' hj' => ?_, hs.clean⟩
      simp only [receive, Function.update_of_ne hj']
      exact hs.others j' hj'
  | closes j o i hp =>
      obtain rfl : j = k := ha
      exact (hs.fewer (fewer_unlink setup s.files j o)).setPhase _

theorem considerate_solo (hs : Lone k s) (ha : Solo k s a) : Considerate setup s a := by
  cases a with
  | launch j | openForReading j | read j => trivial
  | openForWriting j o ok =>
      obtain rfl : j = k := ha
      exact ⟨(hs.clean o).plain, fun _ => (hs.clean o).vacant⟩
  | ends j =>
      obtain rfl : j = k := ha
      exact fun o _ => hs.clean o
  | operate j op =>
      cases op with
      | write i pos bytes =>
          rcases ha with ⟨rfl, hpos⟩
          intro j' o hcollects
          refine .inr ⟨?_, hpos⟩
          -- another job is not there, and has no output
          by_contra hj'
          rw [Collects, hs.others j' hj'] at hcollects
          cases o <;> simp [Phase.awaits] at hcollects
      | _ => exact absurd ha id

/-- A job that is by itself, in a directory without leftovers, is considerate. -/
theorem considerate_alone {files : Files} {actions : List Action}
    (hclean : ∀ o, Clean files k o)
    (hsolo : Lts.Along (step setup) (Solo k) (init files) actions) :
    Lts.Along (step setup) (Considerate setup) (init files) actions :=
  Lts.along_of_along (I := Lone k) (G := Solo k)
    (fun _ _ _ hs ha hstep => lone_moves hs ha (moves_of_step hstep))
    (fun _ _ _ hs ha _ => considerate_solo hs ha) ⟨fun _ _ => rfl, hclean⟩ hsolo

/-! ## Leftovers -/

/-- Undisturbed, the engine reads a file to its end, 4096 bytes at a time. -/
theorem reads_file (setup : Setup) {i : Nat} (rest : List Written) :
    ∀ s : State, (s.jobs k).phase = .reading o i →
      (s.jobs k).result o ++ rest = s.files.data i →
      ∃ m t, Lts.run (step setup) s (List.replicate m (.read k)) = some t ∧
        (t.jobs k).phase = o.next ∧ (t.jobs k).result o = s.files.data i := by
  -- Induction on what is left of the file, a chunk at a time.
  induction hlen : rest.length using Nat.strong_induction_on generalizing rest with
  | _ len ih =>
    intro s hp hdata
    have hchunk : chunk (s.files.data i) ((s.jobs k).result o) = rest.take 4096 := by
      rw [chunk, ← hdata, List.drop_left]
    cases rest with
    | nil =>
        rw [List.append_nil] at hdata
        refine ⟨1, { setPhase s k o.next with files := unlink setup s.files k o }, ?_, ?_, ?_⟩
        · simp only [List.replicate_one, Lts.run, step, hp, hchunk, List.take_nil]
        · simp [setPhase]
        · simp only [setPhase, Function.update_self]
          exact hdata
    | cons b rest =>
        have hstep : step setup s (.read k) =
            some (receive s k o ((b :: rest).take 4096)) := by
          simp only [step, hp, hchunk, List.take_succ_cons]
        have hshort : ((b :: rest).drop 4096).length < len := by
          rw [← hlen, List.length_drop, List.length_cons]
          omega
        rcases ih _ hshort _ rfl (receive s k o ((b :: rest).take 4096))
          (by simp [receive, hp]) (by
            simp only [receive, Function.update_self]
            rw [List.append_assoc, List.take_append_drop]
            exact hdata) with ⟨m, t, hrun, hphase, hresult⟩
        refine ⟨m + 1, t, ?_, hphase, hresult⟩
        rw [List.replicate_succ]
        exact Lts.run_cons.mpr ⟨_, hstep, hrun⟩

/-- A child that fails before it opens its output is returned whatever an
    earlier run left under that name, to the last byte. -/
theorem leftover_returned (setup : Setup) {files : Files} {i : Nat}
    (htmp : files.lookup [ascii "tmp"] = some .dir)
    (hname : files.lookup (Output.out.loc k) = some (.file i)) :
    ∃ m t, Lts.run (step setup) (init files)
        ([.launch k, .ends k, .openForReading k] ++ List.replicate m (.read k)) = some t ∧
      (t.jobs k).result .out = files.data i := by
  have hfile : files.host setup.base (setup.base ++ Output.out.loc k) = some (.file i) := by
    rwa [host_below]
  have hopen : ∃ s, Lts.run (step setup) (init files)
        [.launch k, .ends k, .openForReading k] = some s ∧ s.files = files ∧
      (s.jobs k).phase = .reading .out i ∧ (s.jobs k).result .out = [] := by
    refine ⟨setPhase (setPhase (setPhase (init files) k .cloned) k (.opening .out)) k
      (.reading .out i), ?_, rfl, ?_, ?_⟩
    · simp [Lts.run, step, init, setPhase, Phase.live, walk_file setup.base htmp hname, hfile]
    · simp [setPhase]
    · simp [setPhase, init]
  rcases hopen with ⟨s, hrun, hfiles, hphase, hresult⟩
  rcases reads_file setup (files.data i) s hphase (by rw [hresult, hfiles]; rfl) with
    ⟨m, t, hread, -, hdata⟩
  exact ⟨m, t, Lts.run_append.mpr ⟨s, hrun, hread⟩, by rw [hdata, hfiles]⟩

/-! ## Runs -/

/-- Whatever the directory holds at first, in a run whose steps are considerate
    every job is returned bytes of its own processes only. -/
theorem attributed_of_considerate (setup : Setup) (files : Files) (actions : List Action)
    (h : Lts.Along (step setup) (Considerate setup) (init files) actions) :
    Lts.Always (step setup) Attributed (init files) actions :=
  (Lts.always_of_along (P := Kept)
    (fun _ _ _ hs hg hstep => kept_moves hs hg (moves_of_step hstep)) actions
    (kept_init files) h).imp fun _ hs => hs.results

/-- A directory with nothing but an empty `/tmp` in it. -/
def emptyTmp : Files where
  node p := if p = [ascii "tmp"] then some .dir else none
  outside _ := none
  data _ := []
  next := 0

/-- A job that prints a byte, alone in an empty directory. -/
def printing : List Action :=
  [.launch 1, .openForWriting 1 .out true, .openForWriting 1 .err true,
    .operate 1 (.write 0 0 (ascii "y")), .ends 1, .openForReading 1, .read 1, .read 1]

theorem attributed_printing :
    Lts.Always (step ⟨[], fun _ => none⟩) Attributed (init emptyTmp) printing ∧
      (Lts.run (step ⟨[], fun _ => none⟩) (init emptyTmp) printing).map
        (fun s => (s.jobs 1).result .out) = some [⟨some 1, 0x79⟩] := by
  have hsolo : ∀ a ∈ printing, ∀ s, Solo 1 s a := by
    intro a ha s
    simp only [printing, List.mem_cons, List.not_mem_nil, or_false] at ha
    rcases ha with rfl | rfl | rfl | rfl | rfl | rfl | rfl | rfl
    all_goals first | rfl | exact ⟨rfl, Nat.zero_le _⟩
  refine ⟨attributed_of_considerate _ _ _ (considerate_alone (k := 1) (fun o => ?_)
    (Lts.along_of_forall hsolo)), by decide +kernel⟩
  have hname : emptyTmp.lookup (o.loc 1) = none := by cases o <;> rfl
  refine ⟨⟨fun target h => ?_, fun target h => ?_⟩, fun i h => ?_⟩
  · have htmp : emptyTmp.lookup [ascii "tmp"] = some .dir := rfl
    exact absurd (htmp.symm.trans h) (by simp)
  · exact absurd (hname.symm.trans h) (by simp)
  · exact absurd (hname.symm.trans h) (by simp)

/-- A directory with an `isolyx_out_1` of an earlier run. -/
def leftover : Files where
  node p := if p = [ascii "tmp"] then some .dir
    else if p = Output.out.loc 1 then some (.file 0)
    else none
  outside _ := none
  data _ := [⟨none, 0x78⟩]
  next := 1

/-- With its output redirected, a job is returned the output of an earlier run. -/
theorem redirected_returns_leftover : ¬ ∀ (setup : Setup) (files : Files) (actions : List Action),
    Lts.Always (step setup) Attributed (init files) actions := by
  intro h
  let setup : Setup := ⟨[ascii "rootfs_base"], fun _ => some [.name (ascii "log")]⟩
  let actions : List Action := [.launch 1, .openForWriting 1 .out true,
    .openForWriting 1 .err true, .ends 1, .openForReading 1, .read 1]
  have hrun : (Lts.run (step setup) (init leftover) actions).map
      (fun s => (s.jobs 1).result .out) = some [⟨none, 0x78⟩] := by decide +kernel
  rcases Option.map_eq_some_iff.mp hrun with ⟨t, ht, hresult⟩
  have hown := Lts.always_end (h setup leftover actions) ht 1 .out ⟨none, 0x78⟩
    (hresult ▸ List.mem_singleton.mpr rfl)
  exact absurd hown (by simp)

end SharedTmp

end Isolyx
