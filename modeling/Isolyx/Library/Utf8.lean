import Mathlib.Tactic.Common

/-!
# UTF-8

The automaton that reads UTF-8 one byte at a time. A state says which bytes
may follow; next to it a number collects the bits of the code point. The
encoding itself is the one of the core library, so a byte string is valid when
it is the encoding of some list of characters.

`Reads` is one trip of the automaton from between characters back to it. The
bytes of a character make such a trip (`reads_encodeChar`), and whatever makes
such a trip are the bytes of a character (`encodeChar_of_reads`). Everything
that runs the automaton over a text is then an induction on characters and
never meets an encoding again.

## Main definitions

* `State`, `next`, `code`: The automaton and the bits it collects.
* `encode`: The bytes of a text.
* `decode`: Reading bytes.
* `Reads`: The bytes take the automaton through one character.

## Theorems

* `reads_encodeChar`: The bytes of a character are read as that character.
* `encodeChar_of_reads`: What is read as one character is its encoding.
* `decode_eq_some`: Decoding inverts encoding.
* `zero_not_mem_encode`: Only the zero character has a zero byte.
-/

namespace Utf8

/-- Where the automaton stands between bytes: between characters, or inside
    one with a number of tails owed, the first of them possibly restricted. -/
inductive State where
  | accept
  | tail1
  | tail2
  | tail3
  | afterE0
  | afterED
  | afterF0
  | afterF4
  deriving DecidableEq, Repr

/-- The state after a byte, or `none` where no encoding can go on with it. -/
def next (st : State) (b : UInt8) : Option State :=
  let n := b.toNat
  match st with
  | .accept =>
      if n ≤ 0x7F then some .accept
      else if 0xC2 ≤ n ∧ n ≤ 0xDF then some .tail1
      else if n = 0xE0 then some .afterE0
      else if n = 0xED then some .afterED
      else if 0xE1 ≤ n ∧ n ≤ 0xEF then some .tail2
      else if n = 0xF0 then some .afterF0
      else if 0xF1 ≤ n ∧ n ≤ 0xF3 then some .tail3
      else if n = 0xF4 then some .afterF4
      else none
  | .tail1 => if 0x80 ≤ n ∧ n ≤ 0xBF then some .accept else none
  | .tail2 => if 0x80 ≤ n ∧ n ≤ 0xBF then some .tail1 else none
  | .tail3 => if 0x80 ≤ n ∧ n ≤ 0xBF then some .tail2 else none
  | .afterE0 => if 0xA0 ≤ n ∧ n ≤ 0xBF then some .tail1 else none
  | .afterED => if 0x80 ≤ n ∧ n ≤ 0x9F then some .tail1 else none
  | .afterF0 => if 0x90 ≤ n ∧ n ≤ 0xBF then some .tail2 else none
  | .afterF4 => if 0x80 ≤ n ∧ n ≤ 0x8F then some .tail2 else none

/-- The bits a first byte contributes to the code point. -/
def lead (b : UInt8) : Nat :=
  let n := b.toNat
  if n < 0x80 then n else if n < 0xE0 then n % 0x20 else if n < 0xF0 then n % 0x10 else n % 0x08

/-- The bits collected once a byte is read. -/
def code (st : State) (n : Nat) (b : UInt8) : Nat :=
  if st = .accept then lead b else n * 64 + b.toNat % 64

/-- The bytes of a text. -/
def encode (cs : List Char) : List UInt8 := cs.flatMap String.utf8EncodeChar

/-- Decode from inside a character on, given the bits collected so far. -/
def decodeFrom : State → Nat → List UInt8 → Option (List Char)
  | st, _, [] => if st = .accept then some [] else none
  | st, n, b :: bs => match next st b with
      | none => none
      | some .accept => (decodeFrom .accept 0 bs).map (Char.ofNat (code st n b) :: ·)
      | some st' => decodeFrom st' (code st n b) bs

/-- The text of a byte string, if it is valid. -/
def decode (bs : List UInt8) : Option (List Char) := decodeFrom .accept 0 bs

/-- The bytes take the automaton back between characters, having collected the
    code point `m`, and not before their end. -/
def Reads : State → Nat → List UInt8 → Nat → Prop
  | _, _, [], _ => False
  | st, n, b :: bs, m => ∃ st', next st b = some st' ∧
      if st' = .accept then bs = [] ∧ code st n b = m else Reads st' (code st n b) bs m

theorem toNat_ofNat {n : Nat} (h : n < 256) : (UInt8.ofNat n).toNat = n := by
  rw [UInt8.toNat_ofNat', Nat.mod_eq_of_lt h]

theorem reads_last {st : State} {n m : Nat} {b : UInt8} (h : next st b = some .accept)
    (hm : code st n b = m) : Reads st n [b] m :=
  ⟨.accept, h, by rw [if_pos rfl]; exact ⟨rfl, hm⟩⟩

theorem reads_cons {st : State} (st' : State) {n m : Nat} {b : UInt8} {bs : List UInt8}
    (h : next st b = some st') (hne : st' ≠ .accept) (hbs : Reads st' (code st n b) bs m) :
    Reads st n (b :: bs) m :=
  ⟨st', h, by rw [if_neg hne]; exact hbs⟩

/-- The bits a tail adds. -/
theorem code_tail {st : State} (n k : Nat) (hst : st ≠ .accept) (hk : k < 64) :
    code st n (UInt8.ofNat (k + 0x80)) = n * 64 + k := by
  rw [code, if_neg hst, toNat_ofNat (by omega)]
  omega

theorem next_tail (k : Nat) (hk : k < 64) :
    next .tail1 (UInt8.ofNat (k + 0x80)) = some .accept ∧
    next .tail2 (UInt8.ofNat (k + 0x80)) = some .tail1 ∧
    next .tail3 (UInt8.ofNat (k + 0x80)) = some .tail2 := by
  have hb := toNat_ofNat (show k + 0x80 < 256 by omega)
  have hr : 0x80 ≤ k + 0x80 ∧ k + 0x80 ≤ 0xBF := by omega
  simp only [next, hb, hr, and_self, if_true]

/-- The last tail of a character. -/
theorem reads_tail1 (n v : Nat) (h : n = v / 64) :
    Reads .tail1 n [UInt8.ofNat (v % 64 + 0x80)] v := by
  refine reads_last (next_tail _ (by omega)).1 ?_
  rw [code_tail n _ (by decide) (by omega)]
  omega

/-- The last two tails of a character. -/
theorem reads_tail2 (n v : Nat) (h : n = v / 4096) :
    Reads .tail2 n [UInt8.ofNat (v / 64 % 64 + 0x80), UInt8.ofNat (v % 64 + 0x80)] v := by
  refine reads_cons _ (next_tail _ (by omega)).2.1 (by decide) (reads_tail1 _ v ?_)
  rw [code_tail n _ (by decide) (by omega)]
  omega

/-! ## The bits of a first byte -/

theorem code_one {b : UInt8} (h : b.toNat < 0x80) : code .accept 0 b = b.toNat := by
  rw [code, if_pos rfl, lead, if_pos h]

theorem code_two {b : UInt8} (h₁ : 0x80 ≤ b.toNat) (h₂ : b.toNat < 0xE0) :
    code .accept 0 b = b.toNat % 0x20 := by
  rw [code, if_pos rfl, lead, if_neg (Nat.not_lt.mpr h₁), if_pos h₂]

theorem code_three {b : UInt8} (h₁ : 0xE0 ≤ b.toNat) (h₂ : b.toNat < 0xF0) :
    code .accept 0 b = b.toNat % 0x10 := by
  rw [code, if_pos rfl, lead, if_neg (by omega), if_neg (Nat.not_lt.mpr h₁), if_pos h₂]

theorem code_four {b : UInt8} (h : 0xF0 ≤ b.toNat) : code .accept 0 b = b.toNat % 0x08 := by
  rw [code, if_pos rfl, lead, if_neg (by omega), if_neg (by omega), if_neg (Nat.not_lt.mpr h)]

theorem reads_two (v : Nat) (h₁ : 0x7F < v) (h₂ : v ≤ 0x7FF) :
    Reads .accept 0 [UInt8.ofNat (v / 64 % 0x20 + 0xC0), UInt8.ofNat (v % 64 + 0x80)] v := by
  have hb := toNat_ofNat (show v / 64 % 0x20 + 0xC0 < 256 by omega)
  refine reads_cons .tail1 ?_ (by decide) (reads_tail1 _ v ?_)
  · unfold next
    simp only [hb]
    rw [if_neg (by omega), if_pos (by omega)]
  · rw [code_two (by omega) (by omega), hb]
    omega

/-- A first byte and a restricted or free second one, then a single tail. -/
theorem reads_three (v : Nat) (h₁ : 0x7FF < v) (h₂ : v ≤ 0xFFFF)
    (hsur : v < 0xD800 ∨ 0xDFFF < v) :
    Reads .accept 0 [UInt8.ofNat (v / 4096 % 0x10 + 0xE0), UInt8.ofNat (v / 64 % 64 + 0x80),
      UInt8.ofNat (v % 64 + 0x80)] v := by
  have hb := toNat_ofNat (show v / 4096 % 0x10 + 0xE0 < 256 by omega)
  have hb₂ := toNat_ofNat (show v / 64 % 64 + 0x80 < 256 by omega)
  -- The first byte carries the bits above the lowest twelve.
  have hcode : code .accept 0 (UInt8.ofNat (v / 4096 % 0x10 + 0xE0)) = v / 4096 := by
    rw [code_three (by omega) (by omega), hb]
    omega
  have hrest : ∀ st, st ≠ .accept →
      Reads .tail1 (code st (v / 4096) (UInt8.ofNat (v / 64 % 64 + 0x80)))
        [UInt8.ofNat (v % 64 + 0x80)] v := fun st hst =>
    reads_tail1 _ v (by rw [code_tail _ _ hst (by omega)]; omega)
  -- After 0xE0 the second byte excludes overlong forms, after 0xED surrogates.
  by_cases hE0 : v < 0x1000
  · refine reads_cons .afterE0 ?_ (by decide) ?_
    · unfold next
      simp only [hb]
      rw [if_neg (by omega), if_neg (by omega), if_pos (by omega)]
    · rw [hcode]
      refine reads_cons .tail1 ?_ (by decide) (hrest _ (by decide))
      unfold next
      simp only [hb₂]
      rw [if_pos (by omega)]
  · by_cases hED : 0xD000 ≤ v ∧ v < 0xD800
    · refine reads_cons .afterED ?_ (by decide) ?_
      · unfold next
        simp only [hb]
        rw [if_neg (by omega), if_neg (by omega), if_neg (by omega), if_pos (by omega)]
      · rw [hcode]
        refine reads_cons .tail1 ?_ (by decide) (hrest _ (by decide))
        unfold next
        simp only [hb₂]
        rw [if_pos (by omega)]
    · refine reads_cons .tail2 ?_ (by decide) (reads_tail2 _ v hcode)
      unfold next
      simp only [hb]
      rw [if_neg (by omega), if_neg (by omega), if_neg (by omega), if_neg (by omega),
        if_pos (by omega)]

theorem reads_four (v : Nat) (h₁ : 0xFFFF < v) (h₂ : v < 0x110000) :
    Reads .accept 0 [UInt8.ofNat (v / 262144 % 0x08 + 0xF0),
      UInt8.ofNat (v / 4096 % 64 + 0x80), UInt8.ofNat (v / 64 % 64 + 0x80),
      UInt8.ofNat (v % 64 + 0x80)] v := by
  have hb := toNat_ofNat (show v / 262144 % 0x08 + 0xF0 < 256 by omega)
  have hb₂ := toNat_ofNat (show v / 4096 % 64 + 0x80 < 256 by omega)
  -- The first byte carries the bits above the lowest eighteen.
  have hcode : code .accept 0 (UInt8.ofNat (v / 262144 % 0x08 + 0xF0)) = v / 262144 := by
    rw [code_four (by omega), hb]
    omega
  have hrest : ∀ st, st ≠ .accept →
      Reads .tail2 (code st (v / 262144) (UInt8.ofNat (v / 4096 % 64 + 0x80)))
        [UInt8.ofNat (v / 64 % 64 + 0x80), UInt8.ofNat (v % 64 + 0x80)] v := fun st hst =>
    reads_tail2 _ v (by rw [code_tail _ _ hst (by omega)]; omega)
  -- After 0xF0 overlong forms are excluded, after 0xF4 what lies beyond the last plane.
  by_cases hF0 : v < 0x40000
  · refine reads_cons .afterF0 ?_ (by decide) ?_
    · unfold next
      simp only [hb]
      rw [if_neg (by omega), if_neg (by omega), if_neg (by omega), if_neg (by omega),
        if_neg (by omega), if_pos (by omega)]
    · rw [hcode]
      refine reads_cons .tail2 ?_ (by decide) (hrest _ (by decide))
      unfold next
      simp only [hb₂]
      rw [if_pos (by omega)]
  · by_cases hF4 : 0x100000 ≤ v
    · refine reads_cons .afterF4 ?_ (by decide) ?_
      · unfold next
        simp only [hb]
        rw [if_neg (by omega), if_neg (by omega), if_neg (by omega), if_neg (by omega),
          if_neg (by omega), if_neg (by omega), if_neg (by omega), if_pos (by omega)]
      · rw [hcode]
        refine reads_cons .tail2 ?_ (by decide) (hrest _ (by decide))
        unfold next
        simp only [hb₂]
        rw [if_pos (by omega)]
    · refine reads_cons .tail3 ?_ (by decide) ?_
      · unfold next
        simp only [hb]
        rw [if_neg (by omega), if_neg (by omega), if_neg (by omega), if_neg (by omega),
          if_neg (by omega), if_neg (by omega), if_pos (by omega)]
      · rw [hcode]
        exact reads_cons _ (next_tail _ (by omega)).2.2 (by decide) (hrest _ (by decide))

/-- The bytes of a character are read as that character. -/
theorem reads_encodeChar (c : Char) : Reads .accept 0 (String.utf8EncodeChar c) c.toNat := by
  have hvalid : c.toNat < 0xD800 ∨ 0xDFFF < c.toNat ∧ c.toNat < 0x110000 := c.valid
  have hval : c.val.toNat = c.toNat := rfl
  unfold String.utf8EncodeChar
  simp only [hval]
  split_ifs with h₁ h₂ h₃
  · have hb := toNat_ofNat (show c.toNat < 256 by omega)
    refine reads_last ?_ ?_
    · simp only [next, hb, h₁, if_true]
    · rw [code_one (by omega), hb]
  · exact reads_two _ (by omega) h₂
  · exact reads_three _ (by omega) h₃ (by omega)
  · exact reads_four _ (by omega) (by omega)

theorem ofNat_eq {n : Nat} {b : UInt8} (h : n = b.toNat) : UInt8.ofNat n = b := by
  rw [h, UInt8.ofNat_toNat]

theorem toNat_ofNat_char (n : Nat) (h : n < 0xD800 ∨ 0xDFFF < n ∧ n < 0x110000) :
    (Char.ofNat n).toNat = n := by
  have hv : n.isValidChar := h
  unfold Char.ofNat
  rw [dif_pos hv]
  rfl

theorem reads_tail1_inv {n m : Nat} {bs : List UInt8} (h : Reads .tail1 n bs m) :
    ∃ b, bs = [b] ∧ 0x80 ≤ b.toNat ∧ b.toNat ≤ 0xBF ∧ m = n * 64 + b.toNat % 64 := by
  cases bs with
  | nil => exact h.elim
  | cons b bs =>
      rcases h with ⟨st', hnext, hrest⟩
      simp only [next, Option.ite_none_right_eq_some, Option.some.injEq] at hnext
      rcases hnext with ⟨hb, rfl⟩
      rw [if_pos rfl, code, if_neg (by decide)] at hrest
      rcases hrest with ⟨rfl, rfl⟩
      exact ⟨b, rfl, hb.1, hb.2, rfl⟩

/-- A byte inside a character, after which tails are still owed. -/
theorem reads_inner_inv {st st' : State} {lo hi n m : Nat} {bs : List UInt8}
    (hst : st ≠ .accept) (hst' : st' ≠ .accept)
    (hnext : ∀ b : UInt8, next st b = if lo ≤ b.toNat ∧ b.toNat ≤ hi then some st' else none)
    (h : Reads st n bs m) :
    ∃ b bs', bs = b :: bs' ∧ lo ≤ b.toNat ∧ b.toNat ≤ hi ∧
      Reads st' (n * 64 + b.toNat % 64) bs' m := by
  cases bs with
  | nil => exact h.elim
  | cons b bs =>
      rcases h with ⟨st'', hb, hrest⟩
      rw [hnext b, Option.ite_none_right_eq_some, Option.some.injEq] at hb
      rcases hb with ⟨hb, rfl⟩
      rw [if_neg hst', code, if_neg hst] at hrest
      exact ⟨b, bs, rfl, hb.1, hb.2, hrest⟩

theorem encodeChar_one {c : Char} {b : UInt8} (hc : c.toNat = b.toNat) (h : b.toNat ≤ 0x7F) :
    String.utf8EncodeChar c = [b] := by
  have hval : c.val.toNat = b.toNat := hc
  unfold String.utf8EncodeChar
  simp only [hval]
  rw [if_pos h, UInt8.ofNat_toNat]

theorem encodeChar_two {c : Char} {v : Nat} {b₁ b₂ : UInt8} (hc : c.toNat = v)
    (hv : 0x7F < v ∧ v ≤ 0x7FF) (h₁ : v / 64 % 0x20 + 0xC0 = b₁.toNat)
    (h₂ : v % 64 + 0x80 = b₂.toNat) : String.utf8EncodeChar c = [b₁, b₂] := by
  have hval : c.val.toNat = v := hc
  unfold String.utf8EncodeChar
  simp only [hval]
  rw [if_neg (by omega), if_pos hv.2, ofNat_eq h₁, ofNat_eq h₂]

theorem encodeChar_three {c : Char} {v : Nat} {b₁ b₂ b₃ : UInt8} (hc : c.toNat = v)
    (hv : 0x7FF < v ∧ v ≤ 0xFFFF) (h₁ : v / 4096 % 0x10 + 0xE0 = b₁.toNat)
    (h₂ : v / 64 % 64 + 0x80 = b₂.toNat) (h₃ : v % 64 + 0x80 = b₃.toNat) :
    String.utf8EncodeChar c = [b₁, b₂, b₃] := by
  have hval : c.val.toNat = v := hc
  unfold String.utf8EncodeChar
  simp only [hval]
  rw [if_neg (by omega), if_neg (by omega), if_pos hv.2, ofNat_eq h₁, ofNat_eq h₂, ofNat_eq h₃]

theorem encodeChar_four {c : Char} {v : Nat} {b₁ b₂ b₃ b₄ : UInt8} (hc : c.toNat = v)
    (hv : 0xFFFF < v) (h₁ : v / 262144 % 0x08 + 0xF0 = b₁.toNat)
    (h₂ : v / 4096 % 64 + 0x80 = b₂.toNat) (h₃ : v / 64 % 64 + 0x80 = b₃.toNat)
    (h₄ : v % 64 + 0x80 = b₄.toNat) : String.utf8EncodeChar c = [b₁, b₂, b₃, b₄] := by
  have hval : c.val.toNat = v := hc
  unfold String.utf8EncodeChar
  simp only [hval]
  rw [if_neg (by omega), if_neg (by omega), if_neg (by omega), ofNat_eq h₁, ofNat_eq h₂,
    ofNat_eq h₃, ofNat_eq h₄]

theorem reads_tail2_inv {n m : Nat} {bs : List UInt8} (h : Reads .tail2 n bs m) :
    ∃ b₁ b₂, bs = [b₁, b₂] ∧ 0x80 ≤ b₁.toNat ∧ b₁.toNat ≤ 0xBF ∧ 0x80 ≤ b₂.toNat ∧
      b₂.toNat ≤ 0xBF ∧ m = (n * 64 + b₁.toNat % 64) * 64 + b₂.toNat % 64 := by
  rcases reads_inner_inv (by decide) (by decide) (fun _ => rfl) h with ⟨b₁, bs, rfl, h₁, h₂, h⟩
  rcases reads_tail1_inv h with ⟨b₂, rfl, h₃, h₄, rfl⟩
  exact ⟨b₁, b₂, rfl, h₁, h₂, h₃, h₄, rfl⟩

/-- A three-byte character, whatever its second byte is restricted to. -/
theorem three_of_inner {st : State} {lo hi m : Nat} {b : UInt8} {bs : List UInt8}
    (hst : st ≠ .accept)
    (hnext : ∀ b : UInt8, next st b = if lo ≤ b.toNat ∧ b.toNat ≤ hi then some .tail1 else none)
    (hb : 0xE0 ≤ b.toNat ∧ b.toNat ≤ 0xEF) (hlo : 0x80 ≤ lo) (hhi : hi ≤ 0xBF)
    (hE0 : b.toNat = 0xE0 → 0xA0 ≤ lo) (hED : b.toNat = 0xED → hi ≤ 0x9F)
    (h : Reads st (code .accept 0 b) bs m) :
    (Char.ofNat m).toNat = m ∧ String.utf8EncodeChar (Char.ofNat m) = b :: bs := by
  rw [code_three hb.1 (Nat.lt_succ_of_le hb.2)] at h
  rcases reads_inner_inv hst (by decide) hnext h with ⟨b₁, bs, rfl, h₁, h₂, h⟩
  rcases reads_tail1_inv h with ⟨b₂, rfl, h₃, h₄, rfl⟩
  have hc := toNat_ofNat_char ((b.toNat % 0x10 * 64 + b₁.toNat % 64) * 64 + b₂.toNat % 64)
    (by omega)
  exact ⟨hc, encodeChar_three hc (by omega) (by omega) (by omega) (by omega)⟩

/-- A four-byte character, whatever its second byte is restricted to. -/
theorem four_of_inner {st : State} {lo hi m : Nat} {b : UInt8} {bs : List UInt8}
    (hst : st ≠ .accept)
    (hnext : ∀ b : UInt8, next st b = if lo ≤ b.toNat ∧ b.toNat ≤ hi then some .tail2 else none)
    (hb : 0xF0 ≤ b.toNat ∧ b.toNat ≤ 0xF4) (hlo : 0x80 ≤ lo) (hhi : hi ≤ 0xBF)
    (hF0 : b.toNat = 0xF0 → 0x90 ≤ lo) (hF4 : b.toNat = 0xF4 → hi ≤ 0x8F)
    (h : Reads st (code .accept 0 b) bs m) :
    (Char.ofNat m).toNat = m ∧ String.utf8EncodeChar (Char.ofNat m) = b :: bs := by
  rw [code_four hb.1] at h
  rcases reads_inner_inv hst (by decide) hnext h with ⟨b₁, bs, rfl, h₁, h₂, h⟩
  rcases reads_tail2_inv h with ⟨b₂, b₃, rfl, h₃, h₄, h₅, h₆, rfl⟩
  have hc := toNat_ofNat_char
    (((b.toNat % 0x08 * 64 + b₁.toNat % 64) * 64 + b₂.toNat % 64) * 64 + b₃.toNat % 64) (by omega)
  exact ⟨hc, encodeChar_four hc (by omega) (by omega) (by omega) (by omega) (by omega)⟩

/-- What is read as one character is its encoding. -/
theorem encodeChar_of_reads {bs : List UInt8} {m : Nat} (h : Reads .accept 0 bs m) :
    (Char.ofNat m).toNat = m ∧ String.utf8EncodeChar (Char.ofNat m) = bs := by
  cases bs with
  | nil => exact h.elim
  | cons b bs =>
      rcases h with ⟨st', hnext, hrest⟩
      rw [next] at hnext
      -- One case for each kind of first byte, in the order of `next`.
      by_cases h₁ : b.toNat ≤ 0x7F
      · rw [if_pos h₁, Option.some.injEq] at hnext
        subst hnext
        rw [if_pos rfl, code_one (Nat.lt_succ_of_le h₁)] at hrest
        rcases hrest with ⟨rfl, rfl⟩
        have hc := toNat_ofNat_char (b.toNat) (by omega)
        exact ⟨hc, encodeChar_one hc h₁⟩
      rw [if_neg h₁] at hnext
      by_cases h₂ : 0xC2 ≤ b.toNat ∧ b.toNat ≤ 0xDF
      · rw [if_pos h₂, Option.some.injEq] at hnext
        subst hnext
        rw [if_neg (by decide), code_two (by omega) (by omega)] at hrest
        rcases reads_tail1_inv hrest with ⟨b₁, rfl, h₃, h₄, rfl⟩
        have hc := toNat_ofNat_char (b.toNat % 0x20 * 64 + b₁.toNat % 64) (by omega)
        exact ⟨hc, encodeChar_two hc (by omega) (by omega) (by omega)⟩
      rw [if_neg h₂] at hnext
      by_cases h₃ : b.toNat = 0xE0
      · rw [if_pos h₃, Option.some.injEq] at hnext
        subst hnext
        rw [if_neg (by decide)] at hrest
        exact three_of_inner (by decide) (fun _ => rfl) (by omega) (by omega) (by omega)
          (fun _ => Nat.le_refl _) (by omega) hrest
      rw [if_neg h₃] at hnext
      by_cases h₄ : b.toNat = 0xED
      · rw [if_pos h₄, Option.some.injEq] at hnext
        subst hnext
        rw [if_neg (by decide)] at hrest
        exact three_of_inner (by decide) (fun _ => rfl) (by omega) (by omega) (by omega)
          (by omega) (fun _ => Nat.le_refl _) hrest
      rw [if_neg h₄] at hnext
      by_cases h₅ : 0xE1 ≤ b.toNat ∧ b.toNat ≤ 0xEF
      · rw [if_pos h₅, Option.some.injEq] at hnext
        subst hnext
        rw [if_neg (by decide)] at hrest
        exact three_of_inner (by decide) (fun _ => rfl) (by omega) (by omega) (by omega)
          (by omega) (by omega) hrest
      rw [if_neg h₅] at hnext
      by_cases h₆ : b.toNat = 0xF0
      · rw [if_pos h₆, Option.some.injEq] at hnext
        subst hnext
        rw [if_neg (by decide)] at hrest
        exact four_of_inner (by decide) (fun _ => rfl) (by omega) (by omega) (by omega)
          (fun _ => Nat.le_refl _) (by omega) hrest
      rw [if_neg h₆] at hnext
      by_cases h₇ : 0xF1 ≤ b.toNat ∧ b.toNat ≤ 0xF3
      · rw [if_pos h₇, Option.some.injEq] at hnext
        subst hnext
        rw [if_neg (by decide)] at hrest
        exact four_of_inner (by decide) (fun _ => rfl) (by omega) (by omega) (by omega)
          (by omega) (by omega) hrest
      rw [if_neg h₇] at hnext
      by_cases h₈ : b.toNat = 0xF4
      · rw [if_pos h₈, Option.some.injEq] at hnext
        subst hnext
        rw [if_neg (by decide)] at hrest
        exact four_of_inner (by decide) (fun _ => rfl) (by omega) (by omega) (by omega)
          (by omega) (fun _ => Nat.le_refl _) hrest
      rw [if_neg h₈] at hnext
      exact nomatch hnext

/-! ## Whole texts -/

theorem decodeFrom_reads {st : State} {n m : Nat} {p bs : List UInt8} (h : Reads st n p m) :
    decodeFrom st n (p ++ bs) = (decodeFrom .accept 0 bs).map (Char.ofNat m :: ·) := by
  -- On the bytes of the character, from wherever in it the automaton stands.
  induction p generalizing st n with
  | nil => exact h.elim
  | cons b p ih =>
      rcases h with ⟨st', hnext, hrest⟩
      rw [List.cons_append, decodeFrom, hnext]
      by_cases hst : st' = .accept
      · rw [if_pos hst] at hrest
        subst hst
        rcases hrest with ⟨rfl, rfl⟩
        rfl
      · rw [if_neg hst] at hrest
        cases st' with
        | accept => exact absurd rfl hst
        | _ => exact ih hrest

theorem decode_encode (cs : List Char) : decode (encode cs) = some cs := by
  induction cs with
  | nil => rfl
  | cons c cs ih =>
      rw [decode, encode, List.flatMap_cons, decodeFrom_reads (reads_encodeChar c),
        Char.ofNat_toNat]
      exact congrArg (Option.map (c :: ·)) ih

/-- A decoding starts with one trip of the automaton. -/
theorem reads_of_decodeFrom {st : State} {n : Nat} {bs : List UInt8} {cs : List Char}
    (hne : bs ≠ [] ∨ st ≠ .accept) (h : decodeFrom st n bs = some cs) :
    ∃ p bs' m cs', bs = p ++ bs' ∧ Reads st n p m ∧ cs = Char.ofNat m :: cs' ∧
      decodeFrom .accept 0 bs' = some cs' := by
  -- On the bytes, up to the first one that leads back to `accept`.
  induction bs generalizing st n with
  | nil =>
      rw [decodeFrom, if_neg (hne.resolve_left (fun h => h rfl))] at h
      exact absurd h (by simp only [reduceCtorEq, not_false_eq_true])
  | cons b bs ih =>
      rw [decodeFrom] at h
      cases hnext : next st b with
      | none => simp only [hnext, reduceCtorEq] at h
      | some st' =>
          by_cases hst : st' = .accept
          · subst hst
            simp only [hnext, Option.map_eq_some_iff] at h
            rcases h with ⟨cs', hcs, rfl⟩
            exact ⟨[b], bs, _, cs', rfl, reads_last hnext rfl, rfl, hcs⟩
          · have h' : decodeFrom st' (code st n b) bs = some cs := by
              cases st' with
              | accept => exact absurd rfl hst
              | _ => simpa only [hnext] using h
            rcases ih (Or.inr hst) h' with ⟨p, bs', m, cs', rfl, hp, rfl, hcs⟩
            exact ⟨b :: p, bs', m, cs', rfl, reads_cons _ hnext hst hp, rfl, hcs⟩

/-- Decoding inverts encoding. -/
theorem decode_eq_some {bs : List UInt8} {cs : List Char} :
    decode bs = some cs ↔ encode cs = bs := by
  constructor
  · intro h
    induction cs generalizing bs with
    | nil =>
        by_contra hne
        rcases reads_of_decodeFrom (Or.inl (fun h => hne h.symm)) h with ⟨_, _, _, _, _, _, hcs, _⟩
        exact absurd hcs (by simp only [reduceCtorEq, not_false_eq_true])
    | cons c cs ih =>
        have hne : bs ≠ [] := by
          rintro rfl
          simp only [decode, decodeFrom, if_true, Option.some.injEq, reduceCtorEq] at h
        rcases reads_of_decodeFrom (Or.inl hne) h with ⟨p, bs', m, cs', rfl, hp, hcs, h'⟩
        rw [List.cons.injEq] at hcs
        rcases hcs with ⟨rfl, rfl⟩
        rw [encode, List.flatMap_cons, (encodeChar_of_reads hp).2]
        exact congrArg (p ++ ·) (ih h')
  · rintro rfl
    exact decode_encode cs

theorem encode_injective {a b : List Char} (h : encode a = encode b) : a = b := by
  have hdecode := congrArg decode h
  rw [decode_encode, decode_encode] at hdecode
  exact Option.some.inj hdecode

/-- A zero byte is read between characters only, and as one. -/
theorem zero_of_reads {st : State} {n m : Nat} {bs : List UInt8} (h : Reads st n bs m)
    (hz : 0 ∈ bs) : st = .accept ∧ m = 0 := by
  induction bs generalizing st n with
  | nil => exact h.elim
  | cons b bs ih =>
      rcases h with ⟨st', hnext, hrest⟩
      by_cases hst : st' = .accept
      · rw [if_pos hst] at hrest
        rcases hrest with ⟨rfl, rfl⟩
        obtain rfl : 0 = b := List.mem_singleton.mp hz
        cases st with
        | accept => exact ⟨rfl, rfl⟩
        | _ => exact absurd hnext (by simp [next])
      · rw [if_neg hst] at hrest
        rcases List.mem_cons.mp hz with rfl | hz
        · cases st with
          | accept => exact absurd (Option.some.inj hnext).symm hst
          | _ => exact absurd hnext (by simp [next])
        · exact absurd (ih hrest hz).1 hst

/-- A text without the zero character has no zero byte. -/
theorem zero_not_mem_encode {cs : List Char} (h : ∀ c ∈ cs, c.toNat ≠ 0) : 0 ∉ encode cs := by
  intro hz
  rcases List.mem_flatMap.mp hz with ⟨c, hc, hb⟩
  exact h c hc (zero_of_reads (reads_encodeChar c) hb).2

/-- The byte string is the encoding of some text. -/
def Valid (bs : List UInt8) : Prop := ∃ cs, encode cs = bs

theorem valid_iff {bs : List UInt8} : Valid bs ↔ (decode bs).isSome = true := by
  rw [Option.isSome_iff_exists]
  exact exists_congr fun cs => decode_eq_some.symm

instance (bs : List UInt8) : Decidable (Valid bs) := decidable_of_iff _ valid_iff.symm

end Utf8
