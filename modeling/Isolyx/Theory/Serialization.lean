import Isolyx.Core.Event

/-!
# The Serializer and UTF-8

The table of `decode` is the UTF-8 automaton under other names for its states
(`decode_state`), and the code point it collects is the one the automaton
collects (`decode_codep`). So `dumpEscaped` accepts exactly the valid byte
strings, and what it writes for one is the escaped text.

For an event this says both when `dump` throws and what it returns otherwise:
the encoding of the compact text of the event's JSON value.

## Main definitions

* `stateCode`: The number `decode` has for a state of the automaton.

## Theorems

* `dumpEscaped_encode`: Escaping a text.
* `dumpEscaped_isOk`: Exactly the valid byte strings can be escaped.
* `dump_event`: The text of an event is what `dump` returns.
* `dump_eventObject_isOk`: When the event of a result can be serialized.
-/

namespace Isolyx

namespace Json

open Utf8 (State next code lead encode Valid Reads)

/-- The number `decode` has for a state of the automaton. -/
def stateCode : State → Nat
  | .accept => 0
  | .tail1 => 2
  | .tail2 => 3
  | .afterE0 => 4
  | .afterED => 5
  | .afterF0 => 6
  | .tail3 => 7
  | .afterF4 => 8

/-- A byte comes with its entry in the first part of the table. -/
theorem mem_utf8d (b : UInt8) :
    (utf8d.getD b.toNat 0, b.toNat) ∈ (utf8d.take 256).zipIdx := by
  have hlen : utf8d.length = 400 := by decide +kernel
  have hb := b.toNat_lt
  rw [List.mem_zipIdx_iff_getElem?, List.getElem?_take_of_lt hb, List.getD_eq_getElem?_getD,
    List.getElem?_eq_getElem (by omega), Option.getD_some]

-- A table is checked along its entries, which takes one pass through the list.
theorem decode_state_table : ∀ x ∈ (utf8d.take 256).zipIdx, ∀ st ∈ [State.accept, .tail1, .tail2,
    .tail3, .afterE0, .afterED, .afterF0, .afterF4],
    (utf8d.drop (256 + stateCode st * 16)).getD x.1 0 =
      match next st (UInt8.ofNat x.2) with
      | some st' => stateCode st'
      | none => utf8Reject := by
  decide +kernel

theorem decode_lead_table : ∀ x ∈ (utf8d.take 256).zipIdx, next .accept (UInt8.ofNat x.2) ≠ none →
    (0xFF >>> x.1) &&& x.2 = lead (UInt8.ofNat x.2) := by
  decide +kernel

/-- `decode` moves as the automaton does. -/
theorem decode_state (st : State) (n : Nat) (b : UInt8) :
    (decode ⟨stateCode st, n⟩ b).state = match next st b with
      | some st' => stateCode st'
      | none => utf8Reject := by
  have h := decode_state_table _ (mem_utf8d b) st (by cases st <;> decide)
  rw [List.getD_eq_getElem?_getD, List.getElem?_drop, ← List.getD_eq_getElem?_getD] at h
  simp only [UInt8.ofNat_toNat] at h
  exact h

theorem stateCode_eq_accept {st : State} : stateCode st = utf8Accept ↔ st = .accept := by
  cases st <;> decide

theorem stateCode_ne_reject (st : State) : stateCode st ≠ utf8Reject := by
  cases st <;> decide

/-- `decode` collects the bits the automaton collects. -/
theorem decode_codep (st : State) (n : Nat) (b : UInt8) (h : next st b ≠ none) :
    (decode ⟨stateCode st, n⟩ b).codep = code st n b := by
  by_cases hst : st = .accept
  · subst hst
    have htable := decode_lead_table _ (mem_utf8d b)
    simp only [UInt8.ofNat_toNat] at htable
    rw [code, if_pos rfl, ← htable h]
    rfl
  -- Both collect six bits of a tail; the source says it with masks and shifts.
  · have hmask : b.toNat &&& 0x3f = b.toNat % 64 := Nat.and_two_pow_sub_one_eq_mod b.toNat 6
    have hor := Nat.shiftLeft_add_eq_or_of_lt (show b.toNat % 64 < 2 ^ 6 by omega) n
    have hne : stateCode st ≠ utf8Accept := fun he => hst (stateCode_eq_accept.mp he)
    simp only [decode, ne_eq, hne, not_false_eq_true, if_true]
    rw [code, if_neg hst, hmask, Nat.or_comm, ← hor, Nat.shiftLeft_eq]

/-- A byte the automaton takes, as a step of the decoder. -/
theorem decode_of_next {st st' : State} {n : Nat} {b : UInt8} (h : next st b = some st') :
    decode ⟨stateCode st, n⟩ b = ⟨stateCode st', code st n b⟩ := by
  have hs : (decode ⟨stateCode st, n⟩ b).state = stateCode st' := by
    rw [decode_state, h]
  have hc := decode_codep st n b (by rw [h]; exact Option.some_ne_none st')
  rw [← hc, ← hs]

/-! ## Escaping a text -/

/-- One character's bytes are copied, except that the last one is escaped. -/
theorem dumpEscapedFrom_reads {st : State} {n m : Nat} {p : Bytes} (h : Reads st n p m) :
    ∃ start b, p = start ++ [b] ∧ ∀ last i s, ∃ j,
      dumpEscapedFrom last ⟨stateCode st, n⟩ i (p ++ s) =
        (dumpEscapedFrom last ⟨utf8Accept, m⟩ j s).map (start ++ escape m b ++ ·) := by
  -- On the bytes of the character; only the last of them reaches `utf8Accept`.
  induction p generalizing st n with
  | nil => exact h.elim
  | cons b p ih =>
      rcases h with ⟨st', hnext, hrest⟩
      have hd := decode_of_next (n := n) hnext
      by_cases hst : st' = .accept
      · rw [if_pos hst] at hrest
        rcases hrest with ⟨rfl, rfl⟩
        refine ⟨[], b, rfl, fun last i s => ⟨i + 1, ?_⟩⟩
        subst hst
        rw [List.singleton_append, dumpEscapedFrom]
        simp only [hd]
        -- The last byte, where the code point is complete and the escape is chosen.
        rw [if_pos (by rfl)]
        rfl
      · rw [if_neg hst] at hrest
        -- An inner byte, which is copied as it is.
        rcases ih hrest with ⟨start, b', rfl, hp⟩
        refine ⟨b :: start, b', rfl, fun last i s => ?_⟩
        rcases hp last (i + 1) s with ⟨j, hj⟩
        refine ⟨j, ?_⟩
        rw [List.cons_append, dumpEscapedFrom]
        simp only [hd]
        rw [if_neg (fun he => hst (stateCode_eq_accept.mp he)), if_neg (stateCode_ne_reject st'),
          hj]
        cases dumpEscapedFrom last ⟨utf8Accept, m⟩ j s <;> rfl

/-- The bits collected before a first byte do not matter. -/
theorem dumpEscapedFrom_accept (last : UInt8) (n i : Nat) (s : Bytes) :
    dumpEscapedFrom last ⟨utf8Accept, n⟩ i s = dumpEscapedFrom last ⟨utf8Accept, 0⟩ i s := by
  cases s with
  | nil => rfl
  | cons b s =>
      have h : decode ⟨utf8Accept, n⟩ b = decode ⟨utf8Accept, 0⟩ b := rfl
      rw [dumpEscapedFrom, dumpEscapedFrom, h]

theorem escape_ascii_table : ∀ n : Fin 128,
    encode (JsonText.escapeChar (Char.ofNat n.val)) = escape n.val (UInt8.ofNat n.val) := by
  decide +kernel

theorem escapeChar_of_not_ascii {c : Char} (h : 0x80 ≤ c.toNat) :
    JsonText.escapeChar c = [c] := by
  -- Everything that needs an escape is below 0x80.
  have hq : c ≠ '"' := by
    rintro rfl
    exact absurd h (by decide)
  have hb : c ≠ '\\' := by
    rintro rfl
    exact absurd h (by decide)
  rw [JsonText.escapeChar, if_neg hq, if_neg hb, if_pos (by omega)]

theorem escape_of_not_ascii {n : Nat} {b : UInt8} (h : 0x80 ≤ n) : escape n b = [b] := by
  unfold escape
  rw [if_neg (by omega), if_neg (by omega), if_neg (by omega), if_neg (by omega),
    if_neg (by omega), if_neg (by omega), if_neg (by omega), if_neg (by omega)]

/-- The bytes written for a character encode its escape. -/
theorem escape_encodeChar {c : Char} {start : Bytes} {b : UInt8}
    (h : String.utf8EncodeChar c = start ++ [b]) :
    start ++ escape c.toNat b = encode (JsonText.escapeChar c) := by
  -- One byte, which the table settles, or several, which are copied.
  by_cases hc : c.toNat < 0x80
  · have hone : String.utf8EncodeChar c = [UInt8.ofNat c.toNat] := by
      have hval : c.val.toNat = c.toNat := rfl
      unfold String.utf8EncodeChar
      simp only [hval]
      rw [if_pos (by omega)]
    have htable := escape_ascii_table ⟨c.toNat, hc⟩
    simp only [Char.ofNat_toNat] at htable
    rw [hone] at h
    obtain ⟨rfl, hb⟩ : start = [] ∧ b = UInt8.ofNat c.toNat := by
      cases start with
      | nil =>
          rw [List.nil_append, List.cons.injEq] at h
          exact ⟨rfl, h.1.symm⟩
      | cons a start =>
          have hlen := congrArg List.length h
          simp only [List.length_cons, List.length_nil, List.cons_append,
            List.length_append] at hlen
          omega
    rw [htable, hb, List.nil_append]
  · rw [escape_of_not_ascii (by omega), escapeChar_of_not_ascii (by omega), ← h]
    simp only [encode, List.flatMap_cons, List.flatMap_nil, List.append_nil]

theorem dumpEscapedFrom_encode (last : UInt8) (n i : Nat) (cs : List Char) :
    dumpEscapedFrom last ⟨utf8Accept, n⟩ i (encode cs) =
      .ok (encode (cs.flatMap JsonText.escapeChar)) := by
  induction cs generalizing n i with
  | nil => rfl
  | cons c cs ih =>
      -- Between characters the decoder may hold the last code point; it is not looked at.
      rw [dumpEscapedFrom_accept]
      rcases dumpEscapedFrom_reads (Utf8.reads_encodeChar c) with ⟨start, b, hp, hstep⟩
      rcases hstep last i (encode cs) with ⟨j, hj⟩
      have hcons : encode (c :: cs) = String.utf8EncodeChar c ++ encode cs := List.flatMap_cons
      have hesc : encode ((c :: cs).flatMap JsonText.escapeChar) =
          encode (JsonText.escapeChar c) ++ encode (cs.flatMap JsonText.escapeChar) := by
        simp only [encode, List.flatMap_cons, List.flatMap_append]
      rw [hcons, show (⟨utf8Accept, 0⟩ : Decoder) = ⟨stateCode .accept, 0⟩ from rfl, hj, ih, hesc,
        ← escape_encodeChar hp]
      rfl

/-- Escaping a text. -/
theorem dumpEscaped_encode (cs : List Char) :
    dumpEscaped (encode cs) = .ok (encode (cs.flatMap JsonText.escapeChar)) :=
  dumpEscapedFrom_encode _ 0 0 cs

theorem isOk_map {ε α β : Type} (f : α → β) (x : Except ε α) : (x.map f).isOk = x.isOk := by
  cases x <;> rfl

/-- The decoder gets through exactly what the automaton gets through. -/
theorem dumpEscapedFrom_isOk (last : UInt8) (st : State) (n i : Nat) (s : Bytes) :
    (dumpEscapedFrom last ⟨stateCode st, n⟩ i s).isOk = (Utf8.decodeFrom st n s).isSome := by
  -- On the bytes; the two agree on where they get stuck and on whether they end in between.
  induction s generalizing st n i with
  | nil =>
      rw [dumpEscapedFrom, Utf8.decodeFrom]
      by_cases hst : st = .accept
      · rw [if_pos (stateCode_eq_accept.mpr hst), if_pos hst]
        rfl
      · rw [if_neg (fun he => hst (stateCode_eq_accept.mp he)), if_neg hst]
        rfl
  | cons b s ih =>
      rw [dumpEscapedFrom, Utf8.decodeFrom]
      cases hnext : next st b with
      | none =>
          have hs : (decode ⟨stateCode st, n⟩ b).state = utf8Reject := by
            rw [decode_state, hnext]
          simp only [hs, show ¬ utf8Reject = utf8Accept by decide, if_false, if_true]
          rfl
      | some st' =>
          simp only [decode_of_next hnext]
          by_cases hst : st' = .accept
          · subst hst
            rw [if_pos (by rfl), isOk_map, Option.isSome_map, ← ih .accept 0 (i + 1)]
            exact congrArg Except.isOk (dumpEscapedFrom_accept last _ (i + 1) s)
          · rw [if_neg (fun he => hst (stateCode_eq_accept.mp he)),
              if_neg (stateCode_ne_reject st'), isOk_map, ih]
            cases st' with
            | accept => exact absurd rfl hst
            | _ => rfl

/-- Exactly the valid byte strings can be escaped. -/
theorem dumpEscaped_isOk (s : Bytes) : (dumpEscaped s).isOk = true ↔ Valid s := by
  rw [Utf8.valid_iff]
  exact Bool.eq_iff_iff.mp (dumpEscapedFrom_isOk _ .accept 0 0 s)

/-! ## Integers -/

theorem digits_eq (n : Nat) : digits n = (Nat.toDigits 10 n).map byte := by
  -- Two digits at a time, as the source takes them from its table.
  induction n using Nat.strongRecOn with
  | ind n ih =>
    have htwo : ∀ m, digitsTo99 m =
        [byte (Nat.digitChar (m / 10)), byte (Nat.digitChar (m % 10))] := fun _ => rfl
    rw [digits]
    by_cases h₁ : 100 ≤ n
    · rw [if_pos h₁, ih (n / 100) (by omega), htwo,
        Nat.toDigits_of_base_le (by decide : 1 < 10) (show 10 ≤ n by omega),
        Nat.toDigits_of_base_le (by decide : 1 < 10) (show 10 ≤ n / 10 by omega)]
      simp only [List.map_append, List.map_cons, List.map_nil, List.append_assoc,
        List.singleton_append]
      rw [show n / 10 / 10 = n / 100 by omega, show n % 100 / 10 = n / 10 % 10 by omega,
        show n % 100 % 10 = n % 10 by omega]
    · by_cases h₂ : 10 ≤ n
      · rw [if_neg h₁, if_pos h₂, htwo, Nat.toDigits_of_base_le (by decide : 1 < 10) h₂,
          Nat.toDigits_of_lt_base (show n / 10 < 10 by omega)]
        rfl
      · rw [if_neg h₁, if_neg h₂, Nat.toDigits_of_lt_base (by omega)]
        rfl

/-- The bytes of an ASCII text. -/
theorem encode_ascii {cs : List Char} (h : ∀ c ∈ cs, c.toNat < 0x80) :
    encode cs = cs.map byte := by
  induction cs with
  | nil => rfl
  | cons c cs ih =>
      have hc := h c List.mem_cons_self
      have hone : String.utf8EncodeChar c = [byte c] := by
        have hval : c.val.toNat = c.toNat := rfl
        unfold String.utf8EncodeChar
        simp only [hval]
        rw [if_pos (by omega)]
        rfl
      have hcons : encode (c :: cs) = String.utf8EncodeChar c ++ encode cs := List.flatMap_cons
      rw [hcons, hone, ih fun d hd => h d (List.mem_cons_of_mem c hd)]
      rfl

theorem toDigits_ascii (n : Nat) : ∀ c ∈ Nat.toDigits 10 n, c.toNat < 0x80 := by
  intro c hc
  have hd := Nat.isDigit_of_mem_toDigits (by decide) (by decide) hc
  simp only [Char.isDigit, Bool.and_eq_true, decide_eq_true_eq] at hd
  have hle : c.toNat ≤ '9'.toNat := hd.2
  have hnine : '9'.toNat = 57 := rfl
  omega

theorem dumpInteger_eq (x : Int) : dumpInteger x = encode (JsonText.intText x) := by
  unfold dumpInteger JsonText.intText
  by_cases h₀ : x = 0
  · rw [h₀]
    rfl
  · by_cases h₁ : x < 0
    · rw [if_neg h₀, if_pos h₁, if_pos h₁, digits_eq, encode_ascii]
      · rfl
      · intro c hc
        rcases List.mem_cons.mp hc with rfl | hc
        · decide
        · exact toDigits_ascii _ c hc
    · rw [if_neg h₀, if_neg h₁, if_neg h₁, digits_eq, encode_ascii (toDigits_ascii _)]

/-! ## Objects -/

/-- The member is dumped as the text of a key and a value. -/
def Writes (m : Bytes × Scalar) (t : List Char × JsonText.Value) : Prop :=
  dumpMember m = .ok (encode (JsonText.printString t.1 ++ ':' :: JsonText.print t.2))

theorem encode_append (s t : List Char) : encode (s ++ t) = encode s ++ encode t :=
  List.flatMap_append

theorem encode_cons (c : Char) (s : List Char) : encode (c :: s) = encode [c] ++ encode s :=
  encode_append [c] s

theorem encode_printString (s : List Char) : encode (JsonText.printString s) =
    byte '"' :: (encode (s.flatMap JsonText.escapeChar) ++ [byte '"']) := by
  rw [JsonText.printString, List.cons_append, encode_cons, encode_append]
  rfl

theorem writes_string (k s : List Char) : Writes (encode k, .string (encode s)) (k, .string s) := by
  simp only [Writes, dumpMember, dumpScalar, dumpEscaped_encode, Except.bind, Except.map]
  rw [encode_append, encode_cons, JsonText.print, encode_printString, encode_printString]
  simp only [List.cons_append, List.append_assoc, List.nil_append]
  rfl

theorem writes_integer (k : List Char) (x : Int) :
    Writes (encode k, .integer x) (k, .number (.ofInt x)) := by
  simp only [Writes, dumpMember, dumpScalar, dumpEscaped_encode, dumpInteger_eq, Except.bind,
    Except.map]
  rw [encode_append, encode_cons, JsonText.print, encode_printString]
  simp only [List.cons_append, List.append_assoc, List.nil_append]
  rfl

theorem dumpMembers_writes {m : Bytes × Scalar} {k : List Char} {x : JsonText.Value}
    {ms : Object} {ts : List (List Char × JsonText.Value)} (h : Writes m (k, x))
    (hs : List.Forall₂ Writes ms ts) :
    dumpMembers (m :: ms) = .ok (encode
      (JsonText.printString k ++ ':' :: JsonText.print x ++ JsonText.printMembers ts)) := by
  -- On the members after the first, which are the ones a comma precedes.
  induction hs generalizing m k x with
  | nil =>
      rw [dumpMembers, h, JsonText.printMembers, encode_append _ ['}']]
      rfl
  | @cons m' t ms ts h' hs ih =>
      rcases t with ⟨k', x'⟩
      have htail : encode (JsonText.printMembers ((k', x') :: ts)) = byte ',' :: encode
          (JsonText.printString k' ++ ':' :: JsonText.print x' ++ JsonText.printMembers ts) := by
        rw [JsonText.printMembers, List.cons_append, List.cons_append, encode_cons]
        rfl
      rw [dumpMembers, h, ih h', encode_append (JsonText.printString k ++ ':' :: JsonText.print x)
        (JsonText.printMembers ((k', x') :: ts)), htail]
      · rfl
      · exact fun hnil => absurd hnil (by simp only [reduceCtorEq, not_false_eq_true])

/-- An object all of whose members are texts is dumped as its compact text. -/
theorem dump_writes {m : Bytes × Scalar} {t : List Char × JsonText.Value} {ms : Object}
    {ts : List (List Char × JsonText.Value)} (h : Writes m t) (hs : List.Forall₂ Writes ms ts) :
    dump (m :: ms) = .ok (encode (JsonText.print (.object (t :: ts)))) := by
  rcases t with ⟨k, x⟩
  rw [dump, dumpMembers_writes h hs, JsonText.print, List.cons_append, List.cons_append,
    encode_cons '{']
  rfl

theorem isOk_bind {ε α β : Type} {x : Except ε α} {f : α → Except ε β}
    (h : (x.bind f).isOk = true) : ∃ a, x = .ok a ∧ (f a).isOk = true := by
  cases x with
  | error e => exact absurd h Bool.false_ne_true
  | ok a => exact ⟨a, rfl, h⟩

/-- Every member of an object that is dumped is dumped. -/
theorem dumpMembers_isOk {m : Bytes × Scalar} {ms : Object}
    (h : (dumpMembers ms).isOk = true) (hm : m ∈ ms) : (dumpMember m).isOk = true := by
  induction ms with
  | nil => exact absurd hm List.not_mem_nil
  | cons m' ms ih =>
      cases ms with
      | nil =>
          rw [dumpMembers, isOk_map] at h
          rw [List.mem_singleton.mp hm]
          exact h
      | cons m'' ms =>
          rw [dumpMembers] at h
          · rcases isOk_bind h with ⟨t, ht, hrest⟩
            rw [isOk_map] at hrest
            rcases List.mem_cons.mp hm with rfl | hm
            · rw [ht]
              rfl
            · exact ih hrest hm
          · exact fun hnil => absurd hnil (by simp only [reduceCtorEq, not_false_eq_true])

theorem valid_of_dumpMember {k s : Bytes} (h : (dumpMember (k, .string s)).isOk = true) :
    Valid s := by
  rcases isOk_bind h with ⟨t, _, hv⟩
  rw [isOk_map, dumpScalar, isOk_map] at hv
  exact (dumpEscaped_isOk s).mp hv

end Json

/-! ## Events -/

theorem eventObject_eq (r : JobResult) : eventObject r = [
    (ascii "command_line", .string r.commandLine), (ascii "exit_code", .integer r.exitCode),
    (ascii "job_id", .integer r.jobId), (ascii "stderr_out", .string r.stderrOut),
    (ascii "stdout_out", .string r.stdoutOut), (ascii "term_signal", .integer r.termSignal),
    (ascii "verdict", .string r.verdict.text)] := by
  rfl

theorem verdict_text (v : Verdict) : v.text = Utf8.encode (Event.verdictChars v) := by
  cases v <;> decide

/-- The text of an event is what `dump` returns. -/
theorem dump_event (e : Event) :
    Json.dump (eventObject e.result) = .ok (Utf8.encode e.text) := by
  have hkey : ∀ k : String, (∀ c ∈ k.toList, c.toNat < 0x80) → ascii k = Utf8.encode k.toList :=
    fun k hk => (Json.encode_ascii hk).symm
  rw [eventObject_eq, hkey _ (by simp), hkey "exit_code" (by simp), hkey "job_id" (by simp),
    hkey "stderr_out" (by simp), hkey "stdout_out" (by simp), hkey "term_signal" (by simp),
    hkey "verdict" (by simp), Event.text, Event.value, Event.members]
  refine Json.dump_writes (Json.writes_string _ _) ?_
  refine .cons (Json.writes_integer _ _) (.cons (Json.writes_integer _ _) ?_)
  refine .cons (Json.writes_string _ _) (.cons (Json.writes_string _ _) ?_)
  refine .cons (Json.writes_integer _ _) (.cons ?_ .nil)
  have hv : (e.result).verdict.text = Utf8.encode (Event.verdictChars e.verdict) :=
    verdict_text e.verdict
  rw [hv]
  exact Json.writes_string _ _

theorem event_of_valid {r : JobResult} (hc : Utf8.Valid r.commandLine)
    (ho : Utf8.Valid r.stdoutOut) (he : Utf8.Valid r.stderrOut) : ∃ e : Event, e.result = r := by
  rcases hc with ⟨cs, hcs⟩
  rcases ho with ⟨os, hos⟩
  rcases he with ⟨es, hes⟩
  refine ⟨⟨r.jobId, r.exitCode, r.termSignal, r.verdict, cs, os, es⟩, ?_⟩
  simp only [Event.result, hcs, hos, hes]

/-- The event of a result can be serialized exactly when its three strings are
    valid. -/
theorem dump_eventObject_isOk (r : JobResult) : (Json.dump (eventObject r)).isOk = true ↔
    Utf8.Valid r.commandLine ∧ Utf8.Valid r.stdoutOut ∧ Utf8.Valid r.stderrOut := by
  constructor
  · intro h
    rw [Json.dump, Json.isOk_map, eventObject_eq] at h
    refine ⟨?_, ?_, ?_⟩
    · exact Json.valid_of_dumpMember (Json.dumpMembers_isOk h List.mem_cons_self)
    · exact Json.valid_of_dumpMember (k := ascii "stdout_out") (Json.dumpMembers_isOk h
        (by simp only [List.mem_cons, true_or, or_true]))
    · exact Json.valid_of_dumpMember (k := ascii "stderr_out") (Json.dumpMembers_isOk h
        (by simp only [List.mem_cons, true_or, or_true]))
  · rintro ⟨hc, ho, he⟩
    rcases event_of_valid hc ho he with ⟨e, rfl⟩
    rw [dump_event]
    rfl

end Isolyx
