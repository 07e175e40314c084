import Mathlib.Tactic.Common

/-!
# JSON Texts

The JSON grammar as a reader and a compact writer over lists of characters.

The reader is the recursive descent every implementation of the grammar
amounts to: insignificant whitespace is skipped between tokens, strings and
numbers are scanned by finite automata one character at a time, and arrays and
objects recurse. Recursion is bounded by a counter that the length of the text
always suffices for (`parseValue_fuel`), so a text is refused for its grammar
and never for its size.

A number is kept as its literal, which is all the grammar says of it, together
with the evidence that it is one, and an object as the list of its members in
the order of the text. A text is a list of Unicode scalar values, so an escape
that names half of a surrogate pair is refused.

The two facts a stream of texts rests on are `parse_print`, which reads back
what the writer wrote, and `parse_prefix`: a proper beginning of an object's
text is not itself a JSON text, because the closing brace is missing. The
second follows from the first. Reading is stable under appending (`stable`),
so if the beginning were a text on its own, the whole text would have been
read with something left over.

## Main definitions

* `Numeral`: A literal the grammar accepts as a number.
* `Value`: A JSON value.
* `print`: The compact text of a value.
* `parse`: Reading a text.
* `Numeral.ofInt`: An integer as a number.

## Theorems

* `stable`: Reading is stable under appending and under more fuel.
* `parseValue_fuel`: The length of the text is enough fuel.
* `parse_print`: Writing and reading back.
* `parse_prefix`: A proper beginning of an object's text is refused.
* `print_no_newline`: A compact text has no raw newline.
-/

namespace JsonText

/-! ## Numbers -/

/-- Where the scan of a number is, named by what was read last. -/
inductive NumberState where
  | start
  | minus
  | zero
  | int
  | dot
  | frac
  | exp
  | expSign
  | expDigits
  deriving DecidableEq, Repr

def isDigit (c : Char) : Bool := '0' ≤ c && c ≤ '9'

def numberNext (st : NumberState) (c : Char) : Option NumberState :=
  match st with
  | .start => if c = '-' then some .minus else if c = '0' then some .zero
      else if isDigit c then some .int else none
  | .minus => if c = '0' then some .zero else if isDigit c then some .int else none
  | .zero => if c = '.' then some .dot else if c = 'e' ∨ c = 'E' then some .exp else none
  | .int => if isDigit c then some .int else if c = '.' then some .dot
      else if c = 'e' ∨ c = 'E' then some .exp else none
  | .dot => if isDigit c then some .frac else none
  | .frac => if isDigit c then some .frac
      else if c = 'e' ∨ c = 'E' then some .exp else none
  | .exp => if c = '+' ∨ c = '-' then some .expSign
      else if isDigit c then some .expDigits else none
  | .expSign => if isDigit c then some .expDigits else none
  | .expDigits => if isDigit c then some .expDigits else none

def numberEnds : NumberState → Bool
  | .zero | .int | .frac | .expDigits => true
  | _ => false

/-- The literal takes the automaton from the state to one it may end in. -/
def accepts : NumberState → List Char → Bool
  | st, [] => numberEnds st
  | st, c :: l => match numberNext st c with
      | some st' => accepts st' l
      | none => false

/-- A literal the grammar accepts as a number. -/
structure Numeral where
  literal : List Char
  valid : accepts .start literal = true
  deriving DecidableEq, Repr

inductive Value where
  | null
  | bool (b : Bool)
  | number (n : Numeral)
  | string (s : List Char)
  | array (elements : List Value)
  | object (members : List (List Char × Value))
  deriving Repr

/-! ## Writing -/

/-- The hexadecimal digit of a number below sixteen. -/
def hexDigit (n : Nat) : Char := Nat.digitChar n

/-- The escape of a character inside a string, if it needs one. -/
def escapeChar (c : Char) : List Char :=
  if c = '"' then ['\\', '"']
  else if c = '\\' then ['\\', '\\']
  else if 0x20 ≤ c.toNat then [c]
  else if c.toNat = 0x08 then ['\\', 'b']
  else if c.toNat = 0x09 then ['\\', 't']
  else if c.toNat = 0x0A then ['\\', 'n']
  else if c.toNat = 0x0C then ['\\', 'f']
  else if c.toNat = 0x0D then ['\\', 'r']
  else ['\\', 'u', '0', '0', hexDigit (c.toNat / 16), hexDigit (c.toNat % 16)]

def printString (s : List Char) : List Char := '"' :: s.flatMap escapeChar ++ ['"']

mutual

/-- The compact text of a value. -/
def print : Value → List Char
  | .null => ['n', 'u', 'l', 'l']
  | .bool true => ['t', 'r', 'u', 'e']
  | .bool false => ['f', 'a', 'l', 's', 'e']
  | .number n => n.literal
  | .string s => printString s
  | .array [] => ['[', ']']
  | .array (x :: xs) => '[' :: print x ++ printElements xs
  | .object [] => ['{', '}']
  | .object ((k, x) :: ms) => '{' :: printString k ++ ':' :: print x ++ printMembers ms

/-- The elements after the first, with the closing bracket. -/
def printElements : List Value → List Char
  | [] => [']']
  | x :: xs => ',' :: print x ++ printElements xs

/-- The members after the first, with the closing brace. -/
def printMembers : List (List Char × Value) → List Char
  | [] => ['}']
  | (k, x) :: ms => ',' :: printString k ++ ':' :: print x ++ printMembers ms

end

/-! ## Reading -/

def isSpace (c : Char) : Bool := c = ' ' || c = '\t' || c = '\n' || c = '\r'

def skipSpace (s : List Char) : List Char := s.dropWhile isSpace

/-- Put a character in front of what was scanned. -/
def push {α : Type} (c : Char) (r : Option (List Char × α)) : Option (List Char × α) :=
  r.map fun x => (c :: x.1, x.2)

/-- Where the scan of a string is. A unit of a `u` escape is collected digit
    by digit, most significant first; `high` is the first half of a surrogate
    pair whose second half has to follow. -/
inductive StringState where
  | plain
  | escaped
  | hex (high : Option Nat) (digits : List Nat)
  | wantBackslash (high : Nat)
  | wantU (high : Nat)
  deriving DecidableEq, Repr

/-- The character a one-letter escape stands for. -/
def simpleEscape (c : Char) : Option Char :=
  if c = '"' then some '"'
  else if c = '\\' then some '\\'
  else if c = '/' then some '/'
  else if c = 'b' then some (Char.ofNat 0x08)
  else if c = 'f' then some (Char.ofNat 0x0C)
  else if c = 'n' then some '\n'
  else if c = 'r' then some '\r'
  else if c = 't' then some '\t'
  else none

def hexValue (c : Char) : Option Nat :=
  if '0' ≤ c ∧ c ≤ '9' then some (c.toNat - 48)
  else if 'a' ≤ c ∧ c ≤ 'f' then some (c.toNat - 87)
  else if 'A' ≤ c ∧ c ≤ 'F' then some (c.toNat - 55)
  else none

/-- What a complete `u` escape means: a character, the first half of a pair,
    or nothing. -/
inductive UnitMeaning where
  | char (c : Char)
  | high (unit : Nat)
  | bad

def unitMeaning (high : Option Nat) (unit : Nat) : UnitMeaning :=
  match high with
  | none =>
      if 0xD800 ≤ unit ∧ unit ≤ 0xDBFF then .high unit
      else if 0xDC00 ≤ unit ∧ unit ≤ 0xDFFF then .bad
      else .char (Char.ofNat unit)
  | some h =>
      if 0xDC00 ≤ unit ∧ unit ≤ 0xDFFF then
        .char (Char.ofNat (0x10000 + (h - 0xD800) * 0x400 + (unit - 0xDC00)))
      else .bad

/-- What a character does to the scan of a string: close it, stand for a
    character, or lead on. -/
inductive StringMove where
  | close
  | emit (x : Char)
  | goto (st : StringState)

/-- The scan of a string, one character at a time. -/
def stringNext : StringState → Char → Option StringMove
  | .plain, c =>
      if c = '"' then some .close
      else if c = '\\' then some (.goto .escaped)
      else if c.toNat < 0x20 then none
      else some (.emit c)
  | .escaped, c =>
      if c = 'u' then some (.goto (.hex none []))
      else (simpleEscape c).map .emit
  | .hex high digits, c => (hexValue c).bind fun d =>
      if digits.length < 3 then some (.goto (.hex high (digits ++ [d])))
      else match unitMeaning high ((digits ++ [d]).foldl (fun n d => 16 * n + d) 0) with
        | .char x => some (.emit x)
        | .high unit => some (.goto (.wantBackslash unit))
        | .bad => none
  | .wantBackslash high, c => if c = '\\' then some (.goto (.wantU high)) else none
  | .wantU high, c => if c = 'u' then some (.goto (.hex (some high) [])) else none

/-- Scan a string up to and including its closing quote. -/
def scanString : StringState → List Char → Option (List Char × List Char)
  | _, [] => none
  | st, c :: r => match stringNext st c with
      | none => none
      | some .close => some ([], r)
      | some (.emit x) => push x (scanString .plain r)
      | some (.goto st') => scanString st' r

/-- Scan the longest number and split it off. -/
def scanNumber : NumberState → List Char → Option (List Char × List Char)
  | st, [] => if numberEnds st then some ([], []) else none
  | st, c :: r => match numberNext st c with
      | some st' => push c (scanNumber st' r)
      | none => if numberEnds st then some ([], c :: r) else none

/-- Match a keyword. -/
def keyword : List Char → List Char → Option (List Char)
  | [], s => some s
  | _ :: _, [] => none
  | k :: ks, c :: r => if c = k then keyword ks r else none

/-- Take one character as a token of its own. -/
def expect (c : Char) (s : List Char) : Option (List Char) :=
  match skipSpace s with
  | [] => none
  | d :: r => if d = c then some r else none

theorem push_eq_some {α : Type} {c : Char} {r : Option (List Char × α)} {l : List Char}
    {x : α} : push c r = some (l, x) ↔ ∃ l', l = c :: l' ∧ r = some (l', x) := by
  cases r with
  | none => simp only [push, Option.map_none, reduceCtorEq, and_false, exists_false]
  | some y =>
      rcases y with ⟨l', x'⟩
      simp only [push, Option.map_some, Option.some.injEq, Prod.mk.injEq]
      constructor
      · rintro ⟨rfl, rfl⟩
        exact ⟨l', rfl, rfl, rfl⟩
      · rintro ⟨m, rfl, rfl, rfl⟩
        exact ⟨rfl, rfl⟩

/-- What is scanned off is a beginning of the text and a valid literal. -/
theorem scanNumber_spec {st : NumberState} {s l r : List Char}
    (h : scanNumber st s = some (l, r)) : s = l ++ r ∧ accepts st l = true := by
  induction s generalizing st l with
  | nil =>
      simp only [scanNumber, Option.ite_none_right_eq_some, Option.some.injEq,
        Prod.mk.injEq] at h
      rcases h with ⟨hend, rfl, rfl⟩
      exact ⟨rfl, hend⟩
  | cons c s ih =>
      unfold scanNumber at h
      cases hn : numberNext st c with
      | none =>
          simp only [hn, Option.ite_none_right_eq_some, Option.some.injEq, Prod.mk.injEq] at h
          rcases h with ⟨hend, rfl, rfl⟩
          exact ⟨rfl, hend⟩
      | some st' =>
          simp only [hn] at h
          rcases push_eq_some.mp h with ⟨l', rfl, h'⟩
          rcases ih h' with ⟨rfl, hacc⟩
          exact ⟨rfl, by simp only [accepts, hn, hacc]⟩

/-- Read a number, with the evidence that its literal is one. -/
def readNumber (s : List Char) : Option (Numeral × List Char) :=
  match h : scanNumber .start s with
  | none => none
  | some (l, r) => some (⟨l, (scanNumber_spec h).2⟩, r)

/-- Read a value from its first character on, given how the rest of a
    non-empty array and object is read. -/
def parseAt (elements : List Char → Option (List Value × List Char))
    (members : List Char → Option (List (List Char × Value) × List Char))
    (c : Char) (r : List Char) : Option (Value × List Char) :=
  if c = '{' then match expect '}' r with
    | some r' => some (.object [], r')
    | none => (members r).map fun x => (.object x.1, x.2)
  else if c = '[' then match expect ']' r with
    | some r' => some (.array [], r')
    | none => (elements r).map fun x => (.array x.1, x.2)
  else if c = '"' then (scanString .plain r).map fun x => (.string x.1, x.2)
  else if c = 't' then (keyword ['r', 'u', 'e'] r).map fun x => (.bool true, x)
  else if c = 'f' then (keyword ['a', 'l', 's', 'e'] r).map fun x => (.bool false, x)
  else if c = 'n' then (keyword ['u', 'l', 'l'] r).map fun x => (.null, x)
  else (readNumber (c :: r)).map fun x => (.number x.1, x.2)

mutual

/-- Read one value and return what follows it. -/
def parseValue : Nat → List Char → Option (Value × List Char)
  | 0, _ => none
  | fuel + 1, s => match skipSpace s with
      | [] => none
      | c :: r => parseAt (parseElements fuel) (parseMembers fuel) c r

/-- Read the elements of a non-empty array up to its closing bracket. -/
def parseElements : Nat → List Char → Option (List Value × List Char)
  | 0, _ => none
  | fuel + 1, s => (parseValue fuel s).bind fun x => match expect ',' x.2 with
      | some r => (parseElements fuel r).map fun y => (x.1 :: y.1, y.2)
      | none => (expect ']' x.2).map fun r => ([x.1], r)

/-- Read the members of a non-empty object up to its closing brace. -/
def parseMembers : Nat → List Char → Option (List (List Char × Value) × List Char)
  | 0, _ => none
  | fuel + 1, s => (expect '"' s).bind fun r => (scanString .plain r).bind fun k =>
      (expect ':' k.2).bind fun r => (parseValue fuel r).bind fun x =>
        match expect ',' x.2 with
        | some r => (parseMembers fuel r).map fun y => ((k.1, x.1) :: y.1, y.2)
        | none => (expect '}' x.2).map fun r => ([(k.1, x.1)], r)

end

/-- Read a text: one value and nothing after it. -/
def parse (s : List Char) : Option Value :=
  match parseValue (2 * s.length) s with
  | some (v, r) => if skipSpace r = [] then some v else none
  | none => none

/-! ## Reading consumes, and is stable under appending -/

theorem skipSpace_append {s r : List Char} {c : Char} (t : List Char)
    (h : skipSpace s = c :: r) : skipSpace (s ++ t) = c :: (r ++ t) := by
  induction s with
  | nil => exact absurd h (by simp only [skipSpace, List.dropWhile_nil, reduceCtorEq,
      not_false_eq_true])
  | cons d s ih =>
      unfold skipSpace at h ⊢
      by_cases hd : isSpace d = true
      · rw [List.dropWhile_cons_of_pos hd] at h
        rw [List.cons_append, List.dropWhile_cons_of_pos hd]
        exact ih h
      · rw [List.dropWhile_cons_of_neg hd] at h
        rw [List.cons_append, List.dropWhile_cons_of_neg hd]
        rw [List.cons.injEq] at h
        rw [h.1, h.2]

theorem skipSpace_length (s : List Char) : (skipSpace s).length ≤ s.length :=
  (List.dropWhile_suffix isSpace).length_le

theorem skipSpace_of_head {c : Char} (r : List Char) (h : isSpace c = false) :
    skipSpace (c :: r) = c :: r :=
  List.dropWhile_cons_of_neg (by rw [h]; exact Bool.false_ne_true)

theorem expect_eq_some {c : Char} {s r : List Char} :
    expect c s = some r ↔ skipSpace s = c :: r := by
  unfold expect
  cases skipSpace s with
  | nil => simp only [reduceCtorEq]
  | cons d s =>
      by_cases hd : d = c
      · simp only [hd, if_true, Option.some.injEq, List.cons.injEq, true_and]
      · simp only [hd, if_false, reduceCtorEq, List.cons.injEq, false_and]

theorem expect_append {c : Char} {s r : List Char} (t : List Char) (h : expect c s = some r) :
    expect c (s ++ t) = some (r ++ t) :=
  expect_eq_some.mpr (skipSpace_append t (expect_eq_some.mp h))

theorem expect_length {c : Char} {s r : List Char} (h : expect c s = some r) :
    r.length < s.length := by
  have hle := skipSpace_length s
  rw [expect_eq_some.mp h, List.length_cons] at hle
  omega

/-- A text whose next token starts with one character has no other there. -/
theorem expect_other {c d : Char} {s r : List Char} (h : skipSpace s = d :: r) (hne : d ≠ c) :
    expect c s = none := by
  simp only [expect, h, hne, if_false]

theorem keyword_append {k s r : List Char} (t : List Char) (h : keyword k s = some r) :
    keyword k (s ++ t) = some (r ++ t) := by
  induction k generalizing s with
  | nil =>
      simp only [keyword, Option.some.injEq] at h ⊢
      rw [h]
  | cons c k ih => cases s with
    | nil => exact absurd h (by simp only [keyword, reduceCtorEq, not_false_eq_true])
    | cons d s =>
        simp only [keyword, List.cons_append, Option.ite_none_right_eq_some] at h ⊢
        exact ⟨h.1, ih h.2⟩

theorem keyword_length {k s r : List Char} (h : keyword k s = some r) :
    r.length ≤ s.length := by
  induction k generalizing s with
  | nil =>
      simp only [keyword, Option.some.injEq] at h
      exact Nat.le_of_eq (congrArg List.length h).symm
  | cons c k ih => cases s with
    | nil => exact absurd h (by simp only [keyword, reduceCtorEq, not_false_eq_true])
    | cons d s =>
        simp only [keyword, Option.ite_none_right_eq_some] at h
        have := ih h.2
        rw [List.length_cons]
        omega

theorem keyword_self (k t : List Char) : keyword k (k ++ t) = some t := by
  induction k with
  | nil => rfl
  | cons c k ih => simp only [List.cons_append, keyword, if_true, ih]

theorem scanNumber_append {st : NumberState} {s l r : List Char} (t : List Char)
    (h : scanNumber st s = some (l, r)) (hr : r ≠ []) :
    scanNumber st (s ++ t) = some (l, r ++ t) := by
  induction s generalizing st l with
  | nil =>
      simp only [scanNumber, Option.ite_none_right_eq_some, Option.some.injEq,
        Prod.mk.injEq] at h
      -- At the end of the text the number might go on, which `hr` excludes.
      exact absurd h.2.2.symm hr
  | cons c s ih =>
      rw [List.cons_append]
      unfold scanNumber at h ⊢
      cases hn : numberNext st c with
      | none =>
          simp only [hn, Option.ite_none_right_eq_some, Option.some.injEq,
            Prod.mk.injEq] at h ⊢
          rcases h with ⟨hend, rfl, rfl⟩
          exact ⟨hend, rfl, List.cons_append⟩
      | some st' =>
          simp only [hn] at h ⊢
          rcases push_eq_some.mp h with ⟨l', rfl, h'⟩
          exact push_eq_some.mpr ⟨l', rfl, ih h'⟩

theorem readNumber_eq_some {s r : List Char} {n : Numeral} :
    readNumber s = some (n, r) ↔ scanNumber .start s = some (n.literal, r) := by
  unfold readNumber
  split
  · next h => simp only [h, reduceCtorEq]
  · next l r' h =>
      simp only [h, Option.some.injEq, Prod.mk.injEq]
      constructor
      · rintro ⟨rfl, rfl⟩
        exact ⟨rfl, rfl⟩
      · rintro ⟨rfl, rfl⟩
        exact ⟨rfl, rfl⟩

/-- A number has at least one character, so reading one consumes. -/
theorem scanNumber_length {s l r : List Char} (h : scanNumber .start s = some (l, r)) :
    r.length < s.length := by
  rcases scanNumber_spec h with ⟨rfl, hacc⟩
  cases l with
  | nil => exact absurd hacc (by decide)
  | cons c l =>
      simp only [List.cons_append, List.length_cons, List.length_append]
      omega

theorem scanString_append {st : StringState} {s l r : List Char} (t : List Char)
    (h : scanString st s = some (l, r)) : scanString st (s ++ t) = some (l, r ++ t) := by
  induction s generalizing st l with
  | nil => exact absurd h (by simp only [scanString, reduceCtorEq, not_false_eq_true])
  | cons c s ih =>
      rw [List.cons_append]
      unfold scanString at h ⊢
      cases hn : stringNext st c with
      | none => simp only [hn, reduceCtorEq] at h
      | some m => cases m with
        | close =>
            simp only [hn, Option.some.injEq, Prod.mk.injEq] at h ⊢
            exact ⟨h.1, by rw [h.2]⟩
        | emit x =>
            simp only [hn] at h ⊢
            rcases push_eq_some.mp h with ⟨l', rfl, h'⟩
            exact push_eq_some.mpr ⟨l', rfl, ih h'⟩
        | goto st' =>
            simp only [hn] at h ⊢
            exact ih h

theorem scanString_length {st : StringState} {s l r : List Char}
    (h : scanString st s = some (l, r)) : r.length < s.length := by
  induction s generalizing st l with
  | nil => exact absurd h (by simp only [scanString, reduceCtorEq, not_false_eq_true])
  | cons c s ih =>
      rw [List.length_cons]
      unfold scanString at h
      cases hn : stringNext st c with
      | none => simp only [hn, reduceCtorEq] at h
      | some m => cases m with
        | close =>
            simp only [hn, Option.some.injEq, Prod.mk.injEq] at h
            rw [h.2]
            omega
        | emit x =>
            simp only [hn] at h
            rcases push_eq_some.mp h with ⟨l', rfl, h'⟩
            exact Nat.lt_succ_of_lt (ih h')
        | goto st' =>
            simp only [hn] at h
            exact Nat.lt_succ_of_lt (ih h)

/-- What a successful reading guarantees: something is consumed, and the same
    is read whatever follows and for every counter that the length of what was
    read suffices for. Only a number that ends the text may grow. -/
def Stable {β : Type} (read : Nat → List Char → Option (β × List Char)) (slack : Nat)
    (grows : β → Prop) (s : List Char) (x : β) (r : List Char) : Prop :=
  r.length < s.length ∧ ∀ t g, 2 * s.length + slack ≤ g → (grows x → r = [] → t = []) →
    read g (s ++ t) = some (x, r ++ t)

def Value.isNumber : Value → Prop
  | .number _ => True
  | _ => False

theorem parseValue_succ {f : Nat} {s r : List Char} {v : Value} :
    parseValue (f + 1) s = some (v, r) ↔
      ∃ c s', skipSpace s = c :: s' ∧
        parseAt (parseElements f) (parseMembers f) c s' = some (v, r) := by
  rw [parseValue]
  cases skipSpace s with
  | nil => simp only [reduceCtorEq, false_and, exists_false]
  | cons c s' =>
      constructor
      · exact fun h => ⟨c, s', rfl, h⟩
      · rintro ⟨_, _, ⟨rfl, rfl⟩, h⟩
        exact h

theorem parseElements_succ {f : Nat} {s r : List Char} {xs : List Value} :
    parseElements (f + 1) s = some (xs, r) ↔
      ∃ v r₁, parseValue f s = some (v, r₁) ∧
        ((∃ r₂ ys, expect ',' r₁ = some r₂ ∧ parseElements f r₂ = some (ys, r) ∧
            xs = v :: ys) ∨
          (expect ',' r₁ = none ∧ expect ']' r₁ = some r ∧ xs = [v])) := by
  rw [parseElements]
  constructor
  · intro h
    rcases Option.bind_eq_some_iff.mp h with ⟨⟨v, r₁⟩, hv, h⟩
    refine ⟨v, r₁, hv, ?_⟩
    cases he : expect ',' r₁ with
    | some r₂ =>
        simp only [he, Option.map_eq_some_iff, Prod.mk.injEq, Prod.exists] at h
        rcases h with ⟨ys, _, hys, rfl, rfl⟩
        exact Or.inl ⟨r₂, ys, rfl, hys, rfl⟩
    | none =>
        simp only [he, Option.map_eq_some_iff, Prod.mk.injEq] at h
        rcases h with ⟨_, hr, rfl, rfl⟩
        exact Or.inr ⟨rfl, hr, rfl⟩
  · rintro ⟨v, r₁, hv, ⟨r₂, ys, he, hys, rfl⟩ | ⟨he, hr, rfl⟩⟩
    · simp only [hv, Option.bind_some, he, hys, Option.map_some]
    · simp only [hv, Option.bind_some, he, hr, Option.map_some]

theorem parseMembers_succ {f : Nat} {s r : List Char} {ms : List (List Char × Value)} :
    parseMembers (f + 1) s = some (ms, r) ↔
      ∃ r₀ k r₁ r₂ v r₃, expect '"' s = some r₀ ∧ scanString .plain r₀ = some (k, r₁) ∧
        expect ':' r₁ = some r₂ ∧ parseValue f r₂ = some (v, r₃) ∧
        ((∃ r₄ ys, expect ',' r₃ = some r₄ ∧ parseMembers f r₄ = some (ys, r) ∧
            ms = (k, v) :: ys) ∨
          (expect ',' r₃ = none ∧ expect '}' r₃ = some r ∧ ms = [(k, v)])) := by
  rw [parseMembers]
  constructor
  · intro h
    rcases Option.bind_eq_some_iff.mp h with ⟨r₀, hq, h⟩
    rcases Option.bind_eq_some_iff.mp h with ⟨⟨k, r₁⟩, hk, h⟩
    rcases Option.bind_eq_some_iff.mp h with ⟨r₂, hc, h⟩
    rcases Option.bind_eq_some_iff.mp h with ⟨⟨v, r₃⟩, hv, h⟩
    refine ⟨r₀, k, r₁, r₂, v, r₃, hq, hk, hc, hv, ?_⟩
    cases he : expect ',' r₃ with
    | some r₄ =>
        simp only [he, Option.map_eq_some_iff, Prod.mk.injEq, Prod.exists] at h
        rcases h with ⟨ys, _, hys, rfl, rfl⟩
        exact Or.inl ⟨r₄, ys, rfl, hys, rfl⟩
    | none =>
        simp only [he, Option.map_eq_some_iff, Prod.mk.injEq] at h
        rcases h with ⟨_, hr, rfl, rfl⟩
        exact Or.inr ⟨rfl, hr, rfl⟩
  · rintro ⟨r₀, k, r₁, r₂, v, r₃, hq, hk, hc, hv, ⟨r₄, ys, he, hys, rfl⟩ | ⟨he, hr, rfl⟩⟩
    · simp only [hq, hk, hc, hv, Option.bind_some, he, hys, Option.map_some]
    · simp only [hq, hk, hc, hv, Option.bind_some, he, hr, Option.map_some]

/-- A closing bracket starts no value. -/
theorem parseValue_head {f : Nat} {s r : List Char} {v : Value}
    (h : parseValue f s = some (v, r)) : ∃ c s', skipSpace s = c :: s' ∧ c ≠ ']' := by
  cases f with
  | zero => exact absurd h (by simp only [parseValue, reduceCtorEq, not_false_eq_true])
  | succ f =>
      rcases parseValue_succ.mp h with ⟨c, s', hs, hat⟩
      refine ⟨c, s', hs, ?_⟩
      -- A bracket is none of the first characters, and no number starts with it.
      rintro rfl
      simp only [parseAt, Char.reduceEq, if_false, Option.map_eq_some_iff] at hat
      rcases hat with ⟨⟨n, r'⟩, hn, _⟩
      have hscan := readNumber_eq_some.mp hn
      have hnone : numberNext .start ']' = none := by decide
      simp only [scanNumber, hnone, numberEnds, Bool.false_eq_true, if_false,
        reduceCtorEq] at hscan

theorem parseElements_head {f : Nat} {s r : List Char} {xs : List Value}
    (h : parseElements f s = some (xs, r)) : ∃ c s', skipSpace s = c :: s' ∧ c ≠ ']' := by
  cases f with
  | zero => exact absurd h (by simp only [parseElements, reduceCtorEq, not_false_eq_true])
  | succ f =>
      rcases parseElements_succ.mp h with ⟨v, r₁, hv, _⟩
      exact parseValue_head hv

theorem parseMembers_head {f : Nat} {s r : List Char} {ms : List (List Char × Value)}
    (h : parseMembers f s = some (ms, r)) : ∃ s', skipSpace s = '"' :: s' := by
  cases f with
  | zero => exact absurd h (by simp only [parseMembers, reduceCtorEq, not_false_eq_true])
  | succ f =>
      rcases parseMembers_succ.mp h with ⟨r₀, _, _, _, _, _, hq, _⟩
      exact ⟨r₀, expect_eq_some.mp hq⟩

/-- An opening brace starts no number. -/
theorem parseValue_brace {f : Nat} {s r : List Char} {v : Value}
    (h : parseValue f ('{' :: s) = some (v, r)) : ¬ v.isNumber := by
  cases f with
  | zero => exact absurd h (by simp only [parseValue, reduceCtorEq, not_false_eq_true])
  | succ f =>
      rcases parseValue_succ.mp h with ⟨c, s', hs, hat⟩
      rw [skipSpace_of_head s (by decide), List.cons.injEq] at hs
      rw [parseAt, if_pos hs.1.symm] at hat
      cases hb : expect '}' s' with
      | some r' =>
          simp only [hb, Option.some.injEq, Prod.mk.injEq] at hat
          exact hat.1 ▸ id
      | none =>
          simp only [hb, Option.map_eq_some_iff, Prod.mk.injEq] at hat
          rcases hat with ⟨_, _, hv, _⟩
          exact hv ▸ id

section

variable {f : Nat}
  (hv : ∀ s v r, parseValue f s = some (v, r) → Stable parseValue 0 Value.isNumber s v r)

include hv

theorem parseElements_stable_succ
    (he : ∀ s xs r, parseElements f s = some (xs, r) →
      Stable parseElements 1 (fun _ => False) s xs r)
    (s : List Char) (xs : List Value) (r : List Char)
    (h : parseElements (f + 1) s = some (xs, r)) :
    Stable parseElements 1 (fun _ => False) s xs r := by
  -- After the first element comes a comma and the rest, or the closing bracket.
  rcases parseElements_succ.mp h with ⟨v, r₁, hval, ⟨r₂, ys, hc, hys, rfl⟩ | ⟨hc, hb, rfl⟩⟩
  · rcases hv s v r₁ hval with ⟨hlv, hsv⟩
    rcases he r₂ ys r hys with ⟨hle, hse⟩
    have hl := expect_length hc
    refine ⟨by omega, fun t g hg _ => ?_⟩
    obtain ⟨g, rfl⟩ : ∃ g', g = g' + 1 := ⟨g - 1, by omega⟩
    refine parseElements_succ.mpr ⟨v, r₁ ++ t, hsv t g (by omega) ?_, Or.inl
      ⟨r₂ ++ t, ys, expect_append t hc, hse t g (by omega) (fun h => h.elim), rfl⟩⟩
    -- A number cannot have ended the text, since a comma follows it.
    rintro - rfl
    simp only [List.length_nil, Nat.not_lt_zero] at hl
  · rcases hv s v r₁ hval with ⟨hlv, hsv⟩
    have hl := expect_length hb
    have hb' := fun t => expect_append t hb
    refine ⟨by omega, fun t g hg _ => ?_⟩
    obtain ⟨g, rfl⟩ : ∃ g', g = g' + 1 := ⟨g - 1, by omega⟩
    refine parseElements_succ.mpr ⟨v, r₁ ++ t, hsv t g (by omega) ?_, Or.inr
      ⟨expect_other (expect_eq_some.mp (hb' t)) (by decide), hb' t, rfl⟩⟩
    rintro - rfl
    simp only [List.length_nil, Nat.not_lt_zero] at hl

theorem parseMembers_stable_succ
    (hm : ∀ s ms r, parseMembers f s = some (ms, r) →
      Stable parseMembers 1 (fun _ => False) s ms r)
    (s : List Char) (ms : List (List Char × Value)) (r : List Char)
    (h : parseMembers (f + 1) s = some (ms, r)) :
    Stable parseMembers 1 (fun _ => False) s ms r := by
  rcases parseMembers_succ.mp h with
    ⟨r₀, k, r₁, r₂, v, r₃, hq, hk, hc, hval, htail⟩
  rcases hv r₂ v r₃ hval with ⟨hlv, hsv⟩
  have hl₀ := expect_length hq
  have hl₁ := scanString_length hk
  have hl₂ := expect_length hc
  rcases htail with ⟨r₄, ys, hsep, hys, rfl⟩ | ⟨hsep, hb, rfl⟩
  · rcases hm r₄ ys r hys with ⟨hlm, hsm⟩
    have hl := expect_length hsep
    refine ⟨by omega, fun t g hg _ => ?_⟩
    obtain ⟨g, rfl⟩ : ∃ g', g = g' + 1 := ⟨g - 1, by omega⟩
    refine parseMembers_succ.mpr ⟨r₀ ++ t, k, r₁ ++ t, r₂ ++ t, v, r₃ ++ t, expect_append t hq,
      scanString_append t hk, expect_append t hc, hsv t g (by omega) ?_, Or.inl
      ⟨r₄ ++ t, ys, expect_append t hsep, hsm t g (by omega) (fun h => h.elim), rfl⟩⟩
    rintro - rfl
    simp only [List.length_nil, Nat.not_lt_zero] at hl
  · have hl := expect_length hb
    have hb' := fun t => expect_append t hb
    refine ⟨by omega, fun t g hg _ => ?_⟩
    obtain ⟨g, rfl⟩ : ∃ g', g = g' + 1 := ⟨g - 1, by omega⟩
    refine parseMembers_succ.mpr ⟨r₀ ++ t, k, r₁ ++ t, r₂ ++ t, v, r₃ ++ t, expect_append t hq,
      scanString_append t hk, expect_append t hc, hsv t g (by omega) ?_, Or.inr
      ⟨expect_other (expect_eq_some.mp (hb' t)) (by decide), hb' t, rfl⟩⟩
    rintro - rfl
    simp only [List.length_nil, Nat.not_lt_zero] at hl

end

theorem keyword_stable {k s r : List Char} {x v : Value}
    (h : (keyword k s).map (fun y => (x, y)) = some (v, r)) :
    r.length ≤ s.length ∧ ∀ (t : List Char) (g : Nat), 2 * s.length + 1 ≤ g →
      (v.isNumber → r = [] → t = []) →
      (keyword k (s ++ t)).map (fun y => (x, y)) = some (v, r ++ t) := by
  rcases Option.map_eq_some_iff.mp h with ⟨r', hr, hxr⟩
  rw [Prod.mk.injEq] at hxr
  rcases hxr with ⟨rfl, rfl⟩
  exact ⟨keyword_length hr, fun t _ _ _ => by rw [keyword_append t hr, Option.map_some]⟩

theorem parseValue_stable_succ {f : Nat}
    (he : ∀ s xs r, parseElements f s = some (xs, r) →
      Stable parseElements 1 (fun _ => False) s xs r)
    (hm : ∀ s ms r, parseMembers f s = some (ms, r) →
      Stable parseMembers 1 (fun _ => False) s ms r)
    (s : List Char) (v : Value) (r : List Char)
    (h : parseValue (f + 1) s = some (v, r)) : Stable parseValue 0 Value.isNumber s v r := by
  rcases parseValue_succ.mp h with ⟨c, s', hs, hat⟩
  have hlen := skipSpace_length s
  rw [hs, List.length_cons] at hlen
  -- The same first character is met with any text appended and any counter.
  suffices hsuff : r.length ≤ s'.length ∧ ∀ t g, 2 * s'.length + 1 ≤ g →
      (v.isNumber → r = [] → t = []) →
      parseAt (parseElements g) (parseMembers g) c (s' ++ t) = some (v, r ++ t) by
    refine ⟨by omega, fun t g hg hgrow => ?_⟩
    obtain ⟨g, rfl⟩ : ∃ g', g = g' + 1 := ⟨g - 1, by omega⟩
    exact parseValue_succ.mpr
      ⟨c, s' ++ t, skipSpace_append t hs, hsuff.2 t g (by omega) hgrow⟩
  unfold parseAt at hat ⊢
  -- By the first character, in the order of `parseAt`.
  split_ifs at hat ⊢ with h₁ h₂ h₃ h₄ h₅ h₆
  · cases hb : expect '}' s' with
    | some r' =>
        simp only [hb, Option.some.injEq, Prod.mk.injEq] at hat
        rcases hat with ⟨rfl, rfl⟩
        have hl := expect_length hb
        refine ⟨by omega, fun t g _ _ => ?_⟩
        simp only [expect_append t hb]
    | none =>
        simp only [hb, Option.map_eq_some_iff, Prod.mk.injEq, Prod.exists] at hat
        rcases hat with ⟨ms, _, hms, rfl, rfl⟩
        rcases hm s' ms _ hms with ⟨hl, hst⟩
        refine ⟨by omega, fun t g hg _ => ?_⟩
        have hms' := hst t g hg (fun h => h.elim)
        rcases parseMembers_head hms with ⟨s'', hq⟩
        simp only [expect_other (skipSpace_append t hq) (by decide : '"' ≠ '}'), hms',
          Option.map_some]
  · cases hb : expect ']' s' with
    | some r' =>
        simp only [hb, Option.some.injEq, Prod.mk.injEq] at hat
        rcases hat with ⟨rfl, rfl⟩
        have hl := expect_length hb
        refine ⟨by omega, fun t g _ _ => ?_⟩
        simp only [expect_append t hb]
    | none =>
        simp only [hb, Option.map_eq_some_iff, Prod.mk.injEq, Prod.exists] at hat
        rcases hat with ⟨xs, _, hxs, rfl, rfl⟩
        rcases he s' xs _ hxs with ⟨hl, hst⟩
        refine ⟨by omega, fun t g hg _ => ?_⟩
        have hxs' := hst t g hg (fun h => h.elim)
        rcases parseElements_head hxs with ⟨d, s'', hd, hne⟩
        simp only [expect_other (skipSpace_append t hd) hne, hxs', Option.map_some]
  · simp only [Option.map_eq_some_iff, Prod.mk.injEq, Prod.exists] at hat
    rcases hat with ⟨l, _, hl, rfl, rfl⟩
    have hlen' := scanString_length hl
    refine ⟨by omega, fun t g _ _ => ?_⟩
    simp only [scanString_append t hl, Option.map_some]
  · exact keyword_stable hat
  · exact keyword_stable hat
  · exact keyword_stable hat
  · simp only [Option.map_eq_some_iff, Prod.mk.injEq, Prod.exists] at hat
    rcases hat with ⟨n, r', hn, rfl, rfl⟩
    have hscan := readNumber_eq_some.mp hn
    have hl := scanNumber_length hscan
    rw [List.length_cons] at hl
    refine ⟨by omega, fun t g _ hgrow => ?_⟩
    -- Only a number that ends the text could be longer with text appended.
    by_cases hr : r' = []
    · rw [hgrow trivial hr, List.append_nil, List.append_nil, hn, Option.map_some]
    · rw [← List.cons_append, readNumber_eq_some.mpr (scanNumber_append t hscan hr),
        Option.map_some]

/-- Every successful reading is stable. -/
theorem stable (f : Nat) :
    (∀ s v r, parseValue f s = some (v, r) → Stable parseValue 0 Value.isNumber s v r) ∧
    (∀ s xs r, parseElements f s = some (xs, r) →
      Stable parseElements 1 (fun _ => False) s xs r) ∧
    (∀ s ms r, parseMembers f s = some (ms, r) →
      Stable parseMembers 1 (fun _ => False) s ms r) := by
  induction f with
  | zero =>
      refine ⟨fun _ _ _ h => ?_, fun _ _ _ h => ?_, fun _ _ _ h => ?_⟩ <;>
        simp only [parseValue, parseElements, parseMembers, reduceCtorEq] at h
  | succ f ih =>
      rcases ih with ⟨hv, he, hm⟩
      exact ⟨parseValue_stable_succ he hm, parseElements_stable_succ hv he,
        parseMembers_stable_succ hv hm⟩

/-- The length of the text is enough fuel: what some counter reads, every
    counter from twice the length on reads. -/
theorem parseValue_fuel {f g : Nat} {s r : List Char} {v : Value}
    (h : parseValue f s = some (v, r)) (hg : 2 * s.length ≤ g) :
    parseValue g s = some (v, r) := by
  have := ((stable f).1 s v r h).2 [] g hg (fun _ _ => rfl)
  rwa [List.append_nil, List.append_nil] at this

theorem parseValue_append {f g : Nat} {s r : List Char} {v : Value} (t : List Char)
    (h : parseValue f s = some (v, r)) (hg : 2 * (s ++ t).length ≤ g)
    (hv : ¬ v.isNumber) : parseValue g (s ++ t) = some (v, r ++ t) := by
  rw [List.length_append] at hg
  exact ((stable f).1 s v r h).2 t g (by omega) (fun hn => absurd hn hv)

/-! ## Reading back what was written -/

theorem hexValue_hexDigit (n : Nat) (h : n < 16) : hexValue (hexDigit n) = some n := by
  have hall : ∀ m : Fin 16, hexValue (hexDigit m.val) = some m.val := by decide
  exact hall ⟨n, h⟩

theorem scanString_plain {c : Char} (rest : List Char) (hq : c ≠ '"') (hb : c ≠ '\\')
    (hc : 0x20 ≤ c.toNat) :
    scanString .plain (c :: rest) = push c (scanString .plain rest) := by
  simp only [scanString, stringNext, hq, hb, if_false, Nat.not_lt.mpr hc]

theorem scanString_short {e x : Char} (rest : List Char) (hu : e ≠ 'u')
    (hx : simpleEscape e = some x) :
    scanString .plain ('\\' :: e :: rest) = push x (scanString .plain rest) := by
  have hq : ('\\' : Char) ≠ '"' := by decide
  simp only [scanString, stringNext, hq, if_false, if_true, hu, hx, Option.map_some]

theorem scanString_control {c : Char} (rest : List Char) (hc : c.toNat < 0x20) :
    scanString .plain ('\\' :: 'u' :: '0' :: '0' :: hexDigit (c.toNat / 16) ::
      hexDigit (c.toNat % 16) :: rest) = push c (scanString .plain rest) := by
  have hq : ('\\' : Char) ≠ '"' := by decide
  have hzero : hexValue '0' = some 0 := by decide
  have hhigh := hexValue_hexDigit (c.toNat / 16) (by omega)
  have hlow := hexValue_hexDigit (c.toNat % 16) (by omega)
  -- A control character is no half of a surrogate pair.
  have hunit : unitMeaning none c.toNat = .char c := by
    rw [unitMeaning, if_neg (by omega), if_neg (by omega), Char.ofNat_toNat]
  have hfold : 16 * (16 * (16 * (16 * 0 + 0) + 0) + c.toNat / 16) + c.toNat % 16 = c.toNat := by
    omega
  simp only [scanString, stringNext, hq, if_false, if_true, hzero, hhigh, hlow,
    Option.bind_some, List.length_nil, List.nil_append, List.cons_append, List.length_cons,
    Nat.zero_add, Nat.reduceAdd, Nat.reduceLT, List.foldl_cons, List.foldl_nil, hfold, hunit]

/-- What a character is written as: an escape of one letter, itself, or an
    escape of four digits. -/
theorem escapeChar_cases (c : Char) :
    (∃ e, e ≠ 'u' ∧ 0x20 ≤ e.toNat ∧ simpleEscape e = some c ∧ escapeChar c = ['\\', e]) ∨
      (c ≠ '"' ∧ c ≠ '\\' ∧ 0x20 ≤ c.toNat ∧ escapeChar c = [c]) ∨
      c.toNat < 0x20 ∧ escapeChar c
        = ['\\', 'u', '0', '0', hexDigit (c.toNat / 16), hexDigit (c.toNat % 16)] := by
  have hchar (n : Nat) (h : c.toNat = n) : c = Char.ofNat n := by rw [← h, Char.ofNat_toNat]
  rw [escapeChar]
  by_cases hq : c = '"'
  · exact .inl ⟨'"', by decide, by decide, by rw [hq]; decide, if_pos hq⟩
  rw [if_neg hq]
  by_cases hb : c = '\\'
  · exact .inl ⟨'\\', by decide, by decide, by rw [hb]; decide, if_pos hb⟩
  rw [if_neg hb]
  by_cases hc : 0x20 ≤ c.toNat
  · exact .inr (.inl ⟨hq, hb, hc, if_pos hc⟩)
  rw [if_neg hc]
  by_cases h₁ : c.toNat = 0x08
  · exact .inl ⟨'b', by decide, by decide, hchar _ h₁ ▸ by decide, if_pos h₁⟩
  rw [if_neg h₁]
  by_cases h₂ : c.toNat = 0x09
  · exact .inl ⟨'t', by decide, by decide, hchar _ h₂ ▸ by decide, if_pos h₂⟩
  rw [if_neg h₂]
  by_cases h₃ : c.toNat = 0x0A
  · exact .inl ⟨'n', by decide, by decide, hchar _ h₃ ▸ by decide, if_pos h₃⟩
  rw [if_neg h₃]
  by_cases h₄ : c.toNat = 0x0C
  · exact .inl ⟨'f', by decide, by decide, hchar _ h₄ ▸ by decide, if_pos h₄⟩
  rw [if_neg h₄]
  by_cases h₅ : c.toNat = 0x0D
  · exact .inl ⟨'r', by decide, by decide, hchar _ h₅ ▸ by decide, if_pos h₅⟩
  rw [if_neg h₅]
  exact .inr (.inr ⟨Nat.lt_of_not_le hc, rfl⟩)

/-- Each form of escape is scanned back to the character it was chosen for. -/
theorem scanString_escapeChar (c : Char) (rest : List Char) :
    scanString .plain (escapeChar c ++ rest) = push c (scanString .plain rest) := by
  rcases escapeChar_cases c with ⟨e, hu, -, hx, he⟩ | ⟨hq, hb, hc, he⟩ | ⟨hc, he⟩
  · rw [he]
    exact scanString_short rest hu hx
  · rw [he]
    exact scanString_plain rest hq hb hc
  · rw [he]
    exact scanString_control rest hc

theorem scanString_print (s rest : List Char) :
    scanString .plain (s.flatMap escapeChar ++ '"' :: rest) = some (s, rest) := by
  induction s with
  | nil => simp only [List.flatMap_nil, List.nil_append, scanString, stringNext, if_true]
  | cons c s ih =>
      rw [List.flatMap_cons, List.append_assoc, scanString_escapeChar, ih]
      rfl

/-- The text cannot continue a number. -/
def Stops (rest : List Char) : Prop :=
  ∀ c r, rest = c :: r → ∀ st, numberEnds st = true → numberNext st c = none

theorem stops_nil : Stops [] := fun _ _ h => absurd h (by simp only [reduceCtorEq,
  not_false_eq_true])

theorem scanNumber_print {st : NumberState} {l rest : List Char} (hl : accepts st l = true)
    (hrest : Stops rest) : scanNumber st (l ++ rest) = some (l, rest) := by
  induction l generalizing st with
  | nil =>
      rw [List.nil_append]
      cases rest with
      | nil => simp only [scanNumber, (show numberEnds st = true from hl), if_true]
      | cons c r =>
          have hend : numberEnds st = true := hl
          simp only [scanNumber, hrest c r rfl st hend, hend, if_true]
  | cons c l ih =>
      cases hn : numberNext st c with
      | none => simp only [accepts, hn, Bool.false_eq_true] at hl
      | some st' =>
          simp only [accepts, hn] at hl
          simp only [List.cons_append, scanNumber, hn, ih hl, push, Option.map_some]

theorem stops_separator {c : Char} (rest : List Char) (h : c = ',' ∨ c = ']' ∨ c = '}') :
    Stops (c :: rest) := by
  intro d r hdr st _
  rw [List.cons.injEq] at hdr
  rw [← hdr.1]
  rcases h with rfl | rfl | rfl <;> cases st <;> rfl

theorem numberNext_start {c : Char} {st : NumberState} (h : numberNext .start c = some st) :
    c = '-' ∨ isDigit c = true := by
  by_cases hm : c = '-'
  · exact Or.inl hm
  · refine Or.inr ?_
    by_cases hz : c = '0'
    · rw [hz]
      decide
    · by_contra hd
      simp only [numberNext, hm, hz, hd, if_false, reduceCtorEq] at h

/-- The characters the text of a value can start with. -/
def StartsValue (c : Char) : Prop :=
  c ∈ ['n', 't', 'f', '"', '[', '{', '-'] ∨ isDigit c = true

theorem StartsValue.not_space {c : Char} (h : StartsValue c) : isSpace c = false := by
  rw [Bool.eq_false_iff]
  intro hs
  simp only [isSpace, Bool.or_eq_true, decide_eq_true_eq] at hs
  rcases hs with ((rfl | rfl) | rfl) | rfl <;>
    exact absurd h (by unfold StartsValue; decide)

theorem StartsValue.ne_bracket {c : Char} (h : StartsValue c) : c ≠ ']' := by
  rintro rfl
  exact absurd h (by unfold StartsValue; decide)

theorem numeral_head (n : Numeral) :
    ∃ c l, n.literal = c :: l ∧ (c = '-' ∨ isDigit c = true) := by
  rcases n with ⟨l, hl⟩
  cases l with
  | nil => exact absurd hl (by decide)
  | cons c l =>
      cases hn : numberNext .start c with
      | none => simp only [accepts, hn, Bool.false_eq_true] at hl
      | some st => exact ⟨c, l, rfl, numberNext_start hn⟩

theorem print_head (v : Value) : ∃ c l, print v = c :: l ∧ StartsValue c := by
  cases v with
  | null => exact ⟨'n', _, by rw [print], Or.inl (by decide)⟩
  | bool b =>
      cases b
      · exact ⟨'f', _, by rw [print], Or.inl (by decide)⟩
      · exact ⟨'t', _, by rw [print], Or.inl (by decide)⟩
  | number n =>
      rcases numeral_head n with ⟨c, l, hn, hc | hc⟩
      · exact ⟨c, l, by rw [print, hn], Or.inl (by rw [hc]; decide)⟩
      · exact ⟨c, l, by rw [print, hn], Or.inr hc⟩
  | string s => exact ⟨'"', _, by rw [print, printString, List.cons_append], Or.inl (by decide)⟩
  | array xs =>
      cases xs
      · exact ⟨'[', _, by rw [print], Or.inl (by decide)⟩
      · exact ⟨'[', _, by rw [print, List.cons_append], Or.inl (by decide)⟩
  | object ms =>
      cases ms
      · exact ⟨'{', _, by rw [print], Or.inl (by decide)⟩
      · exact ⟨'{', _, by rw [print, List.cons_append, List.cons_append], Or.inl (by decide)⟩

theorem expect_cons {c : Char} (r : List Char) (h : isSpace c = false) :
    expect c (c :: r) = some r :=
  expect_eq_some.mpr (skipSpace_of_head r h)

/-- No bracket closes a text that a value's text begins. -/
theorem expect_bracket_print (v : Value) (rest : List Char) :
    expect ']' (print v ++ rest) = none := by
  rcases print_head v with ⟨c, l, hv, hc⟩
  rw [hv, List.cons_append]
  exact expect_other (skipSpace_of_head _ hc.not_space) hc.ne_bracket

theorem parseValue_number (n : Numeral) (rest : List Char) (hrest : Stops rest) (g : Nat) :
    parseValue (g + 1) (n.literal ++ rest) = some (.number n, rest) := by
  have hread : readNumber (n.literal ++ rest) = some (n, rest) :=
    readNumber_eq_some.mpr (scanNumber_print n.valid hrest)
  rcases numeral_head n with ⟨c, l, hn, hc⟩
  rw [hn, List.cons_append] at hread ⊢
  have hstart : StartsValue c := hc.imp_left (fun h => by rw [h]; decide)
  have hne : ∀ d : Char, d ∈ ['{', '[', '"', 't', 'f', 'n'] → c ≠ d := by
    rintro d hd rfl
    simp only [List.mem_cons, List.not_mem_nil, or_false] at hd
    rcases hd with rfl | rfl | rfl | rfl | rfl | rfl <;> exact absurd hc (by decide)
  refine parseValue_succ.mpr ⟨c, l ++ rest, skipSpace_of_head _ hstart.not_space, ?_⟩
  unfold parseAt
  rw [if_neg (hne _ (by decide)), if_neg (hne _ (by decide)), if_neg (hne _ (by decide)),
    if_neg (hne _ (by decide)), if_neg (hne _ (by decide)), if_neg (hne _ (by decide)),
    hread, Option.map_some]

theorem parseValue_cons {c : Char} (s : List Char) (hc : isSpace c = false) (g : Nat) :
    parseValue (g + 1) (c :: s) = parseAt (parseElements g) (parseMembers g) c s := by
  rw [parseValue, skipSpace_of_head s hc]

theorem print_length_pos (v : Value) : 0 < (print v).length := by
  rcases print_head v with ⟨c, l, hv, _⟩
  rw [hv, List.length_cons]
  omega

theorem expect_printString (k rest : List Char) :
    expect '"' (printString k ++ rest) = some (k.flatMap escapeChar ++ '"' :: rest) := by
  rw [printString, List.cons_append, List.cons_append, List.append_assoc,
    List.singleton_append]
  exact expect_cons _ (by decide)

mutual

theorem parseValue_print : ∀ (v : Value) (rest : List Char), Stops rest → ∀ g,
    2 * (print v).length ≤ g + 1 → parseValue (g + 1) (print v ++ rest) = some (v, rest)
  | .number n, rest, hrest, g, _ => by
      rw [print]
      exact parseValue_number n rest hrest g
  | .null, rest, _, g, _ => by
      rw [print, List.cons_append, parseValue_cons _ (by decide)]
      simp only [parseAt, Char.reduceEq, if_false, if_true, keyword_self, Option.map_some]
  | .bool true, rest, _, g, _ => by
      rw [print, List.cons_append, parseValue_cons _ (by decide)]
      simp only [parseAt, Char.reduceEq, if_false, if_true, keyword_self, Option.map_some]
  | .bool false, rest, _, g, _ => by
      rw [print, List.cons_append, parseValue_cons _ (by decide)]
      simp only [parseAt, Char.reduceEq, if_false, if_true, keyword_self, Option.map_some]
  | .string s, rest, _, g, _ => by
      rw [print, printString, List.cons_append, List.cons_append, List.append_assoc,
        parseValue_cons _ (by decide), List.singleton_append]
      simp only [parseAt, Char.reduceEq, if_false, if_true, scanString_print, Option.map_some]
  | .array [], rest, _, g, _ => by
      rw [print, List.cons_append, parseValue_cons _ (by decide), List.singleton_append]
      simp only [parseAt, Char.reduceEq, if_false, if_true, expect_cons rest
        (by decide : isSpace ']' = false)]
  | .array (x :: xs), rest, _, g, hg => by
      rw [print, List.length_append, List.length_cons] at hg
      rw [print, List.cons_append, List.cons_append, parseValue_cons _ (by decide),
        List.append_assoc]
      simp only [parseAt, Char.reduceEq, if_false, if_true, expect_bracket_print,
        parseElements_print x xs rest g (by omega), Option.map_some]
  | .object [], rest, _, g, _ => by
      rw [print, List.cons_append, parseValue_cons _ (by decide), List.singleton_append]
      simp only [parseAt, if_true, expect_cons rest (by decide : isSpace '}' = false)]
  | .object ((k, x) :: ms), rest, _, g, hg => by
      have hq : ∀ r, expect '}' (printString k ++ r) = none := fun r =>
        expect_other (skipSpace_of_head _ (by decide)) (by decide : '"' ≠ '}')
      simp only [print, List.length_append, List.length_cons] at hg
      rw [print, List.cons_append, List.cons_append, List.cons_append,
        parseValue_cons _ (by decide), List.append_assoc, List.append_assoc, List.cons_append]
      simp only [parseAt, if_true, hq, parseMembers_print k x ms rest g (by omega),
        Option.map_some]
termination_by v => sizeOf v

theorem parseElements_print : ∀ (x : Value) (xs : List Value) (rest : List Char) (g : Nat),
    2 * ((print x).length + (printElements xs).length) ≤ g + 1 →
    parseElements g (print x ++ (printElements xs ++ rest)) = some (x :: xs, rest)
  | x, [], rest, g, hg => by
      rw [printElements, List.length_singleton] at hg
      have hpos := print_length_pos x
      obtain ⟨g, rfl⟩ : ∃ g', g = g' + 2 := ⟨g - 2, by omega⟩
      rw [printElements, List.singleton_append]
      exact parseElements_succ.mpr ⟨x, ']' :: rest,
        parseValue_print x _ (stops_separator rest (by decide)) g (by omega),
        Or.inr ⟨expect_other (skipSpace_of_head rest (by decide)) (by decide),
          expect_cons rest (by decide), rfl⟩⟩
  | x, y :: ys, rest, g, hg => by
      simp only [printElements, List.length_append, List.length_cons] at hg
      have hpos := print_length_pos x
      obtain ⟨g, rfl⟩ : ∃ g', g = g' + 2 := ⟨g - 2, by omega⟩
      rw [printElements, List.cons_append, List.cons_append, List.append_assoc]
      exact parseElements_succ.mpr ⟨x, ',' :: (print y ++ (printElements ys ++ rest)),
        parseValue_print x _ (stops_separator _ (by decide)) g (by omega),
        Or.inl ⟨_, y :: ys, expect_cons _ (by decide),
          parseElements_print y ys rest (g + 1) (by omega), rfl⟩⟩
termination_by x xs => sizeOf x + sizeOf xs

theorem parseMembers_print : ∀ (k : List Char) (x : Value) (ms : List (List Char × Value))
    (rest : List Char) (g : Nat),
    2 * ((printString k).length + ((print x).length + 1) + (printMembers ms).length) ≤ g + 1 →
    parseMembers g (printString k ++ ':' :: (print x ++ (printMembers ms ++ rest))) =
      some ((k, x) :: ms, rest)
  | k, x, [], rest, g, hg => by
      have hpos := print_length_pos x
      obtain ⟨g, rfl⟩ : ∃ g', g = g' + 2 := ⟨g - 2, by omega⟩
      rw [printMembers, List.length_singleton] at hg
      have hq := expect_printString k (':' :: (print x ++ (printMembers [] ++ rest)))
      rw [printMembers, List.singleton_append] at hq ⊢
      exact parseMembers_succ.mpr ⟨_, k, _, _, x, '}' :: rest, hq, scanString_print k _,
        expect_cons _ (by decide),
        parseValue_print x _ (stops_separator rest (by decide)) g (by omega),
        Or.inr ⟨expect_other (skipSpace_of_head rest (by decide)) (by decide),
          expect_cons rest (by decide), rfl⟩⟩
  | k, x, (k', y) :: ys, rest, g, hg => by
      have hpos := print_length_pos x
      obtain ⟨g, rfl⟩ : ∃ g', g = g' + 2 := ⟨g - 2, by omega⟩
      simp only [printMembers, List.length_append, List.length_cons] at hg
      have hq := expect_printString k (':' :: (print x ++ (printMembers ((k', y) :: ys) ++ rest)))
      simp only [printMembers, List.cons_append, List.append_assoc] at hq ⊢
      exact parseMembers_succ.mpr ⟨_, k, _, _, x, _, hq, scanString_print k _,
        expect_cons _ (by decide),
        parseValue_print x _ (stops_separator _ (by decide)) g (by omega),
        Or.inl ⟨_, (k', y) :: ys, expect_cons _ (by decide),
          parseMembers_print k' y ys rest (g + 1) (by omega), rfl⟩⟩
termination_by _ x ms => sizeOf x + sizeOf ms

end

theorem parseValue_print_self (v : Value) :
    parseValue (2 * (print v).length) (print v) = some (v, []) := by
  have hpos := print_length_pos v
  obtain ⟨g, hg⟩ : ∃ g, 2 * (print v).length = g + 1 := ⟨2 * (print v).length - 1, by omega⟩
  have h := parseValue_print v [] stops_nil g (by omega)
  rwa [List.append_nil, ← hg] at h

/-- Reading returns the value that was written. -/
theorem parse_print (v : Value) : parse (print v) = some v := by
  rw [parse, parseValue_print_self]
  rfl

/-- A proper beginning of an object's text is refused: its closing brace is
    missing, so what was read of it could be read with something left over. -/
theorem parse_prefix (ms : List (List Char × Value)) (s t : List Char)
    (h : print (.object ms) = s ++ t) (hs : s ≠ []) (ht : t ≠ []) : parse s = none := by
  cases hp : parseValue (2 * s.length) s with
  | none => rw [parse, hp]
  | some x =>
      exfalso
      rcases x with ⟨v, r⟩
      -- It begins with a brace, so what was read of it is no number and stays what it is.
      have hnum : ¬ v.isNumber := by
        obtain ⟨s', rfl⟩ : ∃ s', s = '{' :: s' := by
          obtain ⟨c, s', rfl⟩ := List.exists_cons_of_ne_nil hs
          cases ms <;> simp only [print, List.cons_append, List.cons.injEq] at h <;>
            exact ⟨s', by rw [h.1]⟩
        exact parseValue_brace hp
      -- The whole text reads as the object with nothing left, and as `v` with `t` left over.
      have hfull := parseValue_print_self (.object ms)
      have happ := parseValue_append t hp (Nat.le_refl _) hnum
      rw [h, happ, Option.some.injEq, Prod.mk.injEq] at hfull
      exact ht (List.append_eq_nil_iff.mp hfull.2).2

/-! ## Compact texts have no raw control character -/

theorem isDigit_toNat {c : Char} (h : isDigit c = true) : 0x20 ≤ c.toNat := by
  simp only [isDigit, Bool.and_eq_true, decide_eq_true_eq] at h
  have hle : '0'.toNat ≤ c.toNat := h.1
  have hzero : '0'.toNat = 48 := rfl
  omega

theorem numberNext_toNat {st st' : NumberState} {c : Char} (h : numberNext st c = some st') :
    0x20 ≤ c.toNat := by
  by_contra hlt
  have hd : isDigit c = false := Bool.eq_false_iff.mpr fun hd => hlt (isDigit_toNat hd)
  have hne : ∀ d : Char, 0x20 ≤ d.toNat → c ≠ d := by
    rintro d hd' rfl
    exact hlt hd'
  -- No state goes on with a control character.
  cases st <;>
    simp only [numberNext, hd, hne '-' (by decide), hne '0' (by decide), hne '.' (by decide),
      hne 'e' (by decide), hne 'E' (by decide), hne '+' (by decide), or_self, if_false,
      Bool.false_eq_true, reduceCtorEq] at h

theorem accepts_toNat {st : NumberState} {l : List Char} (h : accepts st l = true) :
    ∀ c ∈ l, 0x20 ≤ c.toNat := by
  induction l generalizing st with
  | nil => exact fun c hc => absurd hc List.not_mem_nil
  | cons d l ih =>
      cases hn : numberNext st d with
      | none => simp only [accepts, hn, Bool.false_eq_true] at h
      | some st' =>
          simp only [accepts, hn] at h
          intro c hc
          rcases List.mem_cons.mp hc with rfl | hc
          · exact numberNext_toNat hn
          · exact ih h c hc

theorem hexDigit_toNat (n : Nat) (h : n < 16) : 0x20 ≤ (hexDigit n).toNat := by
  have hall : ∀ m : Fin 16, 0x20 ≤ (hexDigit m.val).toNat := by decide
  exact hall ⟨n, h⟩

theorem escapeChar_toNat (c : Char) : ∀ d ∈ escapeChar c, 0x20 ≤ d.toNat := by
  intro d hd
  rcases escapeChar_cases c with ⟨e, -, hletter, -, he⟩ | ⟨-, -, hc, he⟩ | ⟨hc, he⟩
  · rw [he, List.mem_cons, List.mem_singleton] at hd
    rcases hd with rfl | rfl
    · decide
    · exact hletter
  · rw [he, List.mem_singleton] at hd
    exact hd ▸ hc
  · simp only [he, List.mem_cons, List.not_mem_nil, or_false] at hd
    rcases hd with rfl | rfl | rfl | rfl | rfl | rfl
    · decide
    · decide
    · decide
    · decide
    · exact hexDigit_toNat _ (by omega)
    · exact hexDigit_toNat _ (by omega)

theorem printString_toNat (s : List Char) : ∀ d ∈ printString s, 0x20 ≤ d.toNat := by
  intro d hd
  simp only [printString, List.cons_append, List.mem_cons, List.mem_append, List.mem_flatMap,
    List.not_mem_nil, or_false] at hd
  rcases hd with rfl | ⟨c, _, hd⟩ | rfl
  · decide
  · exact escapeChar_toNat c d hd
  · decide

mutual

theorem print_toNat : ∀ (v : Value), ∀ c ∈ print v, 0x20 ≤ c.toNat
  | .null => by rw [print]; simp
  | .bool true => by rw [print]; simp
  | .bool false => by rw [print]; simp
  | .number n => by rw [print]; exact accepts_toNat n.valid
  | .string s => by rw [print]; exact printString_toNat s
  | .array [] => by rw [print]; simp
  | .array (x :: xs) => by
      intro c hc
      simp only [print, List.cons_append, List.mem_cons, List.mem_append] at hc
      rcases hc with rfl | hc | hc
      · decide
      · exact print_toNat x c hc
      · exact printElements_toNat xs c hc
  | .object [] => by rw [print]; simp
  | .object ((k, x) :: ms) => by
      intro c hc
      simp only [print, List.cons_append, List.mem_cons, List.mem_append] at hc
      rcases hc with rfl | (hc | rfl | hc) | hc
      · decide
      · exact printString_toNat k c hc
      · decide
      · exact print_toNat x c hc
      · exact printMembers_toNat ms c hc

theorem printElements_toNat : ∀ (xs : List Value), ∀ c ∈ printElements xs, 0x20 ≤ c.toNat
  | [] => by rw [printElements]; simp
  | x :: xs => by
      intro c hc
      simp only [printElements, List.cons_append, List.mem_cons, List.mem_append] at hc
      rcases hc with rfl | hc | hc
      · decide
      · exact print_toNat x c hc
      · exact printElements_toNat xs c hc

theorem printMembers_toNat :
    ∀ (ms : List (List Char × Value)), ∀ c ∈ printMembers ms, 0x20 ≤ c.toNat
  | [] => by rw [printMembers]; simp
  | (k, x) :: ms => by
      intro c hc
      simp only [printMembers, List.cons_append, List.mem_cons, List.mem_append] at hc
      rcases hc with rfl | (hc | rfl | hc) | hc
      · decide
      · exact printString_toNat k c hc
      · decide
      · exact print_toNat x c hc
      · exact printMembers_toNat ms c hc

end

/-- A compact text is one line. -/
theorem print_no_newline (v : Value) : '\n' ∉ print v :=
  fun h => absurd (print_toNat v _ h) (by decide)

/-! ## Integers -/

theorem isDigit_eq (c : Char) : isDigit c = c.isDigit := by
  simp only [isDigit, Char.isDigit, ge_iff_le]
  rfl

/-- The decimal digits of a positive number start with one that is not zero. -/
theorem toDigits_head (n : Nat) (hn : 0 < n) :
    ∃ c l, Nat.toDigits 10 n = c :: l ∧ c ≠ '0' := by
  -- The first digit of a number is the first digit of its tenth.
  induction n using Nat.strongRecOn with
  | ind n ih =>
    by_cases hlt : n < 10
    · refine ⟨n.digitChar, [], Nat.toDigits_of_lt_base hlt, ?_⟩
      have hall : ∀ m : Fin 10, 0 < m.val → m.val.digitChar ≠ '0' := by decide
      exact hall ⟨n, hlt⟩ hn
    · rcases ih (n / 10) (by omega) (by omega) with ⟨c, l, hl, hc⟩
      refine ⟨c, l ++ [(n % 10).digitChar], ?_, hc⟩
      rw [Nat.toDigits_of_base_le (by decide) (by omega), hl, List.cons_append]

theorem accepts_digits {l : List Char} (h : ∀ c ∈ l, isDigit c = true) :
    accepts .int l = true := by
  induction l with
  | nil => rfl
  | cons c l ih =>
      rw [accepts, numberNext, if_pos (h c List.mem_cons_self)]
      exact ih fun d hd => h d (List.mem_cons_of_mem c hd)

theorem accepts_toDigits (st : NumberState) (hst : st = .start ∨ st = .minus) (n : Nat) :
    accepts st (Nat.toDigits 10 n) = true := by
  have hdigits : ∀ c ∈ Nat.toDigits 10 n, isDigit c = true := fun c hc => by
    rw [isDigit_eq]
    exact Nat.isDigit_of_mem_toDigits (by decide) (by decide) hc
  by_cases hn : n = 0
  · rw [hn]
    rcases hst with rfl | rfl <;> decide
  · rcases toDigits_head n (by omega) with ⟨c, l, hl, hc⟩
    rw [hl] at hdigits ⊢
    have hd := hdigits c List.mem_cons_self
    have hm : c ≠ '-' := by
      rintro rfl
      exact absurd hd (by decide)
    have hnext : numberNext st c = some .int := by
      rcases hst with rfl | rfl <;> simp only [numberNext, hm, hc, hd, if_false, if_true]
    rw [accepts, hnext]
    exact accepts_digits fun d hd => hdigits d (List.mem_cons_of_mem c hd)

def intText (i : Int) : List Char :=
  if i < 0 then '-' :: Nat.toDigits 10 i.natAbs else Nat.toDigits 10 i.natAbs

theorem accepts_intText (i : Int) : accepts .start (intText i) = true := by
  unfold intText
  by_cases hi : i < 0
  · rw [if_pos hi, accepts]
    exact accepts_toDigits .minus (Or.inr rfl) i.natAbs
  · rw [if_neg hi]
    exact accepts_toDigits .start (Or.inl rfl) i.natAbs

/-- An integer as a number. -/
def Numeral.ofInt (i : Int) : Numeral := ⟨intText i, accepts_intText i⟩

end JsonText
