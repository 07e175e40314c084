import Mathlib.Logic.Function.Basic

/-!
# Critical Sections

Threads that share data behind a mutex. A thread takes the mutex, goes through
its section step by step and gives the mutex back, while the others go on with
what they do. A step of a section reads the data and may write them; what was
read decides how the section goes on, and may be long out of date when it is
used.

It never is, as long as everybody who touches the data has the mutex: then the
section that is under way ends as it would have ended had it run at once on the
data it found. `Covers` says so in a form that each step preserves. `c` is what
the data are to those outside, `d` what they are in the middle of a section,
and what is left of the section does to `d` what all of it does to `c`
(`covers_act`). When nothing is left the whole section has taken effect at that
moment (`eval_of_covers`).

After its last access a section may still have something to do before the mutex
is free, so a thread may be inside and yet be `leaving`.

## Main definitions

* `Body`: The code of a section, as steps on the data.
* `Body.eval`: What it does when it runs at once.
* `Body.steps`: How many steps that takes.
* `Code`: What is left to do for a thread that is inside.
* `Mutex`: A mutex, and the code of the threads that are inside.
* `Mutex.Exclusive`: Who is inside has the mutex.
* `Covers`: The section that is under way will have run at once.

## Theorems

* `Exclusive.eq`: There is one thread inside at most.
* `exclusive_take`, `exclusive_goOn`, `exclusive_give`: A thread enters, goes on and leaves.
* `covers_take`: A section begins.
* `covers_act`: A step of the section.
* `eval_of_covers`: A section that is at its end has run at once.
* `covers_of_quiet`: Nobody is in the middle of a section.
-/

namespace Sections

variable {ι κ δ ρ : Type*}

/-- A step reads the data, writes them, and goes on as what it read demands. -/
inductive Body (δ ρ : Type*) where
  | ret (result : ρ)
  | act (write : δ → δ) (next : δ → Body δ ρ)

/-- The data and the result of a section that nobody interrupts. -/
def Body.eval : Body δ ρ → δ → δ × ρ
  | ret result, d => (d, result)
  | act write next, d => (next d).eval (write d)

/-- How many steps that takes. -/
def Body.steps : Body δ ρ → δ → Nat
  | ret _, _ => 0
  | act write next, d => (next d).steps (write d) + 1

inductive Code (δ ρ : Type*) where
  /-- Steps on the data are left. -/
  | running (rest : Body δ ρ)
  /-- The section took effect; the mutex is still to be given back. -/
  | leaving

structure Mutex (ι κ : Type*) where
  holder : Option ι
  inside : ι → Option κ

namespace Mutex

def free : Mutex ι κ where
  holder := none
  inside := fun _ => none

variable [DecidableEq ι]

/-- `lock`, which waits until nobody has the mutex. -/
def take (m : Mutex ι κ) (i : ι) (k : κ) : Option (Mutex ι κ) :=
  if m.holder.isNone then some ⟨some i, Function.update m.inside i (some k)⟩ else none

def goOn (m : Mutex ι κ) (i : ι) (k : κ) : Mutex ι κ :=
  { m with inside := Function.update m.inside i (some k) }

/-- `unlock`. -/
def give (m : Mutex ι κ) (i : ι) : Mutex ι κ where
  holder := none
  inside := Function.update m.inside i none

/-- Whoever is inside has the mutex, and the other way round. -/
def Exclusive (m : Mutex ι κ) : Prop := ∀ i, m.holder = some i ↔ ∃ k, m.inside i = some k

end Mutex

open Mutex

theorem exclusive_free : (free : Mutex ι κ).Exclusive := by
  intro i
  simp only [free, reduceCtorEq, exists_false]

namespace Mutex

variable {m : Mutex ι κ} {i j : ι} {k l : κ}

/-- There is one thread inside at most. -/
theorem Exclusive.eq (h : m.Exclusive) (hi : m.inside i = some k) (hj : m.inside j = some l) :
    i = j := by
  have hholder := (h i).mpr ⟨k, hi⟩
  rw [(h j).mpr ⟨l, hj⟩, Option.some.injEq] at hholder
  exact hholder.symm

theorem Exclusive.outside (h : m.Exclusive) (hfree : m.holder = none) (i : ι) :
    m.inside i = none := by
  by_contra hin
  rcases Option.ne_none_iff_exists'.mp hin with ⟨k, hk⟩
  rw [(h i).mpr ⟨k, hk⟩] at hfree
  simp only [reduceCtorEq] at hfree

variable [DecidableEq ι]

theorem take_eq_some {m' : Mutex ι κ} : m.take i k = some m' ↔
    m.holder = none ∧ m' = ⟨some i, Function.update m.inside i (some k)⟩ := by
  rw [take, Option.ite_none_right_eq_some, Option.isNone_iff_eq_none, Option.some.injEq]
  exact and_congr_right fun _ => eq_comm

theorem inside_goOn_self (m : Mutex ι κ) (i : ι) (k : κ) : (m.goOn i k).inside i = some k :=
  Function.update_self _ _ _

theorem inside_goOn_other (m : Mutex ι κ) (k : κ) (h : j ≠ i) :
    (m.goOn i k).inside j = m.inside j :=
  Function.update_of_ne h _ _

theorem inside_give_self (m : Mutex ι κ) (i : ι) : (m.give i).inside i = none :=
  Function.update_self _ _ _

theorem inside_give_other (m : Mutex ι κ) (h : j ≠ i) : (m.give i).inside j = m.inside j :=
  Function.update_of_ne h _ _

end Mutex

section

variable [DecidableEq ι] {m : Mutex ι κ} {i : ι} {k l : κ}

theorem exclusive_take {m' : Mutex ι κ} (h : m.Exclusive) (ht : m.take i k = some m') :
    m'.Exclusive := by
  rcases take_eq_some.mp ht with ⟨hfree, rfl⟩
  intro j
  by_cases hj : j = i
  · subst hj
    simp only [Function.update_self, Option.some.injEq, exists_eq']
  · simp only [Function.update_of_ne hj, h.outside hfree, reduceCtorEq, exists_false, iff_false,
      Option.some.injEq]
    exact fun heq => hj heq.symm

theorem exclusive_goOn (h : m.Exclusive) (hi : m.inside i = some k) : (m.goOn i l).Exclusive := by
  intro j
  by_cases hj : j = i
  · subst hj
    simp only [inside_goOn_self, Option.some.injEq, exists_eq', iff_true]
    exact (h j).mpr ⟨k, hi⟩
  · rw [inside_goOn_other m l hj]
    exact h j

/-- With the one that was inside gone, nobody is. -/
theorem Mutex.Exclusive.inside_give (h : m.Exclusive) (hi : m.inside i = some k) (j : ι) :
    (m.give i).inside j = none := by
  by_cases hj : j = i
  · rw [hj, inside_give_self]
  · rw [inside_give_other m hj]
    by_contra hin
    rcases Option.ne_none_iff_exists'.mp hin with ⟨l, hl⟩
    exact hj (h.eq hl hi)

theorem exclusive_give (h : m.Exclusive) (hi : m.inside i = some k) : (m.give i).Exclusive := by
  intro j
  rw [h.inside_give hi]
  simp only [give, reduceCtorEq, exists_false]

end

/-! ## Sections run at once -/

/-- The data are `d`, and to those outside they are `c`; `whole i` is the
    section that thread `i` is to go through. -/
structure Covers (m : Mutex ι (Code δ ρ)) (whole : ι → Option (Body δ ρ)) (d c : δ) : Prop where
  quiet : (∀ i rest, m.inside i ≠ some (.running rest)) → d = c
  busy : ∀ i rest, m.inside i = some (.running rest) →
    ∃ body, whole i = some body ∧ rest.eval d = body.eval c

variable {m : Mutex ι (Code δ ρ)} {whole : ι → Option (Body δ ρ)} {d c : δ} {i : ι}

/-- Nobody is in the middle of a section. -/
theorem covers_of_quiet (h : ∀ i rest, m.inside i ≠ some (.running rest)) :
    Covers m whole d d where
  quiet := fun _ => rfl
  busy i rest hi := absurd hi (h i rest)

theorem covers_free : Covers (free : Mutex ι (Code δ ρ)) whole d d :=
  covers_of_quiet fun _ _ => Option.some_ne_none _ ∘ Eq.symm

theorem eq_of_free (h : Covers m whole d c) (he : m.Exclusive) (hfree : m.holder = none) :
    d = c := by
  refine h.quiet fun i rest hi => ?_
  rw [he.outside hfree] at hi
  simp only [reduceCtorEq] at hi

theorem eq_of_leaving (h : Covers m whole d c) (he : m.Exclusive)
    (hi : m.inside i = some .leaving) : d = c := by
  refine h.quiet fun j rest hj => ?_
  rw [he.eq hj hi, hi] at hj
  simp only [Option.some.injEq, reduceCtorEq] at hj

/-- A section that is at its end has run at once. -/
theorem eval_of_covers (h : Covers m whole d c) {r : ρ}
    (hi : m.inside i = some (.running (.ret r))) :
    ∃ body, whole i = some body ∧ body.eval c = (d, r) := by
  rcases h.busy i _ hi with ⟨body, hbody, heval⟩
  exact ⟨body, hbody, heval.symm⟩

/-- What the others are to go through may change. -/
theorem Covers.congr (h : Covers m whole d c) {whole' : ι → Option (Body δ ρ)}
    (hw : ∀ i body rest, m.inside i = some (.running rest) → whole i = some body →
      whole' i = some body) : Covers m whole' d c where
  quiet := h.quiet
  busy i rest hi := by
    rcases h.busy i rest hi with ⟨body, hbody, heval⟩
    exact ⟨body, hw i body rest hi hbody, heval⟩

variable [DecidableEq ι]

/-- A section begins. -/
theorem covers_take {m' : Mutex ι (Code δ ρ)} {body : Body δ ρ} (h : Covers m whole d c)
    (he : m.Exclusive) (hbody : whole i = some body) (ht : m.take i (.running body) = some m') :
    Covers m' whole d c := by
  rcases take_eq_some.mp ht with ⟨hfree, rfl⟩
  have hdc := eq_of_free h he hfree
  subst hdc
  refine ⟨fun _ => rfl, fun j rest hj => ?_⟩
  by_cases hji : j = i
  · subst hji
    simp only [Function.update_self, Option.some.injEq, Code.running.injEq] at hj
    exact ⟨body, hbody, by rw [hj]⟩
  · simp only [Function.update_of_ne hji, he.outside hfree, reduceCtorEq] at hj

/-- A step of the section. -/
theorem covers_act (h : Covers m whole d c) (he : m.Exclusive) {write : δ → δ}
    {next : δ → Body δ ρ} (hi : m.inside i = some (.running (.act write next))) :
    Covers (m.goOn i (.running (next d))) whole (write d) c := by
  refine ⟨fun hquiet => ?_, fun j rest hj => ?_⟩
  · exact absurd (inside_goOn_self m i _) (hquiet i (next d))
  · by_cases hji : j = i
    · subst hji
      rw [inside_goOn_self, Option.some.injEq, Code.running.injEq] at hj
      subst hj
      exact h.busy j _ hi
    · rw [inside_goOn_other m _ hji] at hj
      exact absurd (he.eq hj hi) hji

/-- With the one that was inside gone or leaving, nobody is in the middle of a section. -/
theorem quiet_give (he : m.Exclusive) {k : Code δ ρ} (hi : m.inside i = some k) (j : ι)
    (rest : Body δ ρ) : (m.give i).inside j ≠ some (.running rest) := by
  rw [he.inside_give hi]
  simp only [ne_eq, reduceCtorEq, not_false_eq_true]

theorem quiet_leaving (he : m.Exclusive) {k : Code δ ρ} (hi : m.inside i = some k) (j : ι)
    (rest : Body δ ρ) : (m.goOn i .leaving).inside j ≠ some (.running rest) := by
  intro hj
  by_cases hji : j = i
  · subst hji
    simp only [inside_goOn_self, Option.some.injEq, reduceCtorEq] at hj
  · rw [inside_goOn_other m _ hji] at hj
    exact hji (he.eq hj hi)

end Sections
