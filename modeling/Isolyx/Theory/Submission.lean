import Isolyx.Core.Invocation
import Isolyx.Theory.Iteration
import Mathlib.Data.List.TakeWhile

/-!
# The Two Submission Paths

One program, asked for in two ways: as a line typed into the shell, and as a
line of the command pipe. The executable and the background flag come out the
same. The argument vector never does.

`parseLine` puts the first word into the vector before anything else, so that
`argv` begins with the name of the program, the way `execvp` wants it. The
daemon thread fills the vector from the member `args` alone, and no one adds
the name later. What the shell starts has one more argument than what the
daemon starts, whatever the words are, so there is no input on which the two
agree.

What the tokenizer makes of a rendered line is the part with an induction in
it: words joined by single spaces are read back as those words (`words_join`),
and words that are no control words all become arguments (`parseWords_plain`).

## Main definitions

* `IsWord`: What the shell can be given as one word.
* `IsControl`: The words the shell does not take for arguments.
* `Agree`: Two lines start one program in the same way.

## Theorems

* `words_join`: Joined words are read back.
* `startedByShell_shellLine`: What the shell starts.
* `startedByDaemon_jobValue`: What the daemon starts.
* `submissions_differ`: The two never agree.
* `bare_submission_differs`: They differ for a program without arguments.
-/

namespace Isolyx

namespace Parser

/-- What the shell can be given as one word. -/
structure IsWord (w : Bytes) : Prop where
  nonempty : w ≠ []
  plain : ∀ b ∈ w, isSpace b = false

instance (w : Bytes) : Decidable (IsWord w) :=
  decidable_of_iff (w ≠ [] ∧ w.all (fun b => !isSpace b) = true)
    ⟨fun h => ⟨h.1, by simpa using h.2⟩, fun h => ⟨h.nonempty, by simpa using h.plain⟩⟩

/-- The words the shell does not take for arguments. -/
def IsControl (w : Bytes) : Prop := w = ascii "&" ∨ w = ascii ">" ∨ w = ascii "<"

/-- Words that follow each other with one space between them are read back. -/
theorem words_join {w : Bytes} {ws : List Bytes} (hw : IsWord w) (hws : ∀ x ∈ ws, IsWord x) :
    words (w ++ ws.flatMap fun x => Invocation.space :: x) = w :: ws := by
  have hfirst : ¬ w.isEmpty = true := fun h => hw.nonempty (List.isEmpty_iff.mp h)
  induction ws generalizing w with
  | nil =>
      rw [List.flatMap_nil, List.append_nil, words, wordsFrom_word [] w hw.plain,
        List.nil_append, if_neg hfirst]
  | cons x ws ih =>
      have hx := hws x List.mem_cons_self
      -- the space ends the first word, and what follows it is a joined line again
      have hrest := ih hx (fun y hy => hws y (List.mem_cons_of_mem x hy))
        (fun h => hx.nonempty (List.isEmpty_iff.mp h))
      rw [List.flatMap_cons, words, wordsFrom_append [] _ hw.plain, List.nil_append,
        List.cons_append, wordsFrom, if_pos (show isSpace Invocation.space = true by decide),
        if_neg hfirst]
      exact congrArg (w :: ·) hrest

/-- Words that are no control words become arguments, in their order. -/
theorem parseWords_plain (cmd : Command) {ws : List Bytes} (rest : List Bytes)
    (h : ∀ w ∈ ws, ¬ IsControl w) :
    parseWords cmd (ws ++ rest)
      = parseWords { cmd with arguments := cmd.arguments ++ ws } rest := by
  induction ws generalizing cmd with
  | nil => rw [List.nil_append, List.append_nil]
  | cons w ws ih =>
      have hw := h w List.mem_cons_self
      simp only [IsControl, not_or] at hw
      rw [List.cons_append, parseWords.eq_def]
      simp only [if_neg hw.1, if_neg hw.2.1, if_neg hw.2.2]
      rw [ih _ fun x hx => h x (List.mem_cons_of_mem w hx)]
      simp only [List.append_assoc, List.singleton_append]

end Parser

namespace Invocation

open CommandLine (parseJob parseText commandOf getString member? items finiteNumbers
  finiteElements finiteMembers)
open JsonText (Value)
open Isolyx.Parser (IsWord IsControl)

/-- Two lines, one for each front end, start one program in the same way. -/
def Agree (line fifo : Bytes) : Prop :=
  ∃ p, startedByShell line = some p ∧ startedByDaemon fifo = some p

/-- The command of a plain name is the program of that name. -/
theorem started_plain {cmd : Command} (hne : cmd.executable ≠ []) (hb : cmd.isBuiltin = false) :
    started cmd
      = some ⟨cString cmd.executable, cmd.arguments.map cString, cmd.isBackground⟩ := by
  have he : ¬ cmd.isEmpty = true := fun h => hne (List.isEmpty_iff.mp h)
  rw [started, if_neg he, hb, if_neg Bool.false_ne_true]

/-- The shell starts a program whose first argument is its own name. -/
theorem startedByShell_shellLine {e : Bytes} {args : List Bytes} (he : IsWord e)
    (hcd : e ≠ ascii "cd") (hexit : e ≠ ascii "exit") (hargs : ∀ a ∈ args, IsWord a)
    (hplain : ∀ a ∈ args, ¬ IsControl a) :
    startedByShell (shellLine e args)
      = some ⟨cString e, cString e :: args.map cString, true⟩ := by
  have hamp : IsWord (ascii "&") := by decide
  -- the line is its words joined, the control word at the end among them
  have hline : shellLine e args
      = e ++ (args ++ [ascii "&"]).flatMap (fun a => space :: a) := by
    rw [shellLine, List.flatMap_append, List.append_assoc, List.flatMap_singleton]
  have hwords : Parser.words (shellLine e args) = e :: (args ++ [ascii "&"]) := by
    rw [hline]
    refine Parser.words_join he fun x hx => ?_
    rcases List.mem_append.mp hx with hx | hx
    · exact hargs x hx
    · exact List.mem_singleton.mp hx ▸ hamp
  have hcmd : Parser.parseLine (shellLine e args)
      = { executable := e, arguments := e :: args, isBackground := true } := by
    simp only [Parser.parseLine, hwords, Parser.parseWords_plain _ _ hplain]
    rfl
  have hb : ({ executable := e, arguments := e :: args, isBackground := true } :
      Command).isBuiltin = false := by
    simp only [Command.isBuiltin, hcd, hexit, decide_false, Bool.or_self]
  have hne : ¬ ({ executable := e, arguments := e :: args, isBackground := true } :
      Command).isEmpty = true := fun h => he.nonempty (List.isEmpty_iff.mp h)
  simp only [startedByShell, hcmd, hb]
  rw [if_neg hne, if_neg Bool.false_ne_true, started_plain he.nonempty hb]
  rfl

theorem mapM_getString (args : List (List Char)) :
    (args.map Value.string).mapM getString = some (args.map Utf8.encode) := by
  induction args with
  | nil => rfl
  | cons a args ih =>
      rw [List.map_cons, List.mapM_cons, ih]
      rfl

/-- The daemon's command has the arguments of the line, and no others. -/
theorem commandOf_jobValue (e : List Char) (args : List (List Char)) :
    commandOf (jobValue e args) = some
      { executable := Utf8.encode e, arguments := args.map Utf8.encode, isBackground := true } := by
  have he : member? "executable".toList
      [("executable".toList, .string e), ("args".toList, .array (args.map .string))]
      = some (.string e) := rfl
  have ha : member? "args".toList
      [("executable".toList, .string e), ("args".toList, .array (args.map .string))]
      = some (.array (args.map .string)) := rfl
  simp only [commandOf, jobValue, he, ha, items, mapM_getString]
  rfl

/-- The daemon starts a program whose arguments are those of the line. -/
theorem startedByDaemon_jobValue {e : List Char} {args : List (List Char)} {fifo : Bytes}
    (he : Utf8.encode e ≠ []) (hcd : Utf8.encode e ≠ ascii "cd")
    (hexit : Utf8.encode e ≠ ascii "exit") (hfifo : parseText fifo = some (jobValue e args)) :
    startedByDaemon fifo
      = some ⟨cString (Utf8.encode e), (args.map Utf8.encode).map cString, true⟩ := by
  rw [startedByDaemon, parseJob, hfifo, Option.bind_some, commandOf_jobValue, Option.bind_some]
  refine started_plain he ?_
  simp only [Command.isBuiltin, hcd, hexit, decide_false, Bool.or_self]

/-- A value without numbers beyond a `double` is read back from its text. -/
theorem parseText_print {v : Value} (h : finiteNumbers v = true) :
    parseText (Utf8.encode (JsonText.print v)) = some v := by
  rcases JsonText.print_head v with ⟨c, l, hcl, hc⟩
  -- the text neither starts with a byte order mark nor contains a zero byte
  have hmark : c ≠ '\uFEFF' := by
    rintro rfl
    exact absurd hc (by simp only [JsonText.StartsValue]; decide)
  have hzero : (Utf8.encode (JsonText.print v)).takeWhile (· != 0)
      = Utf8.encode (JsonText.print v) := by
    refine List.takeWhile_eq_self_iff.mpr fun b hb => bne_iff_ne.mpr ?_
    rintro rfl
    refine Utf8.zero_not_mem_encode (fun d hd => ?_) hb
    have := JsonText.print_toNat v d hd
    omega
  rw [parseText, hzero, Utf8.decode_encode, Option.bind_some, hcl]
  split
  · rename_i heq
    exact absurd (List.cons.inj heq).1 hmark
  · simp only [← hcl, JsonText.parse_print, Option.filter_some, if_pos h]

theorem finiteElements_strings (args : List (List Char)) :
    finiteElements (args.map Value.string) = true := by
  induction args with
  | nil => rfl
  | cons a args ih => simp only [List.map_cons, finiteElements, finiteNumbers, ih, Bool.and_self]

/-- Every program and argument list has a line. -/
theorem parseText_jobValue (e : List Char) (args : List (List Char)) :
    parseText (Utf8.encode (JsonText.print (jobValue e args))) = some (jobValue e args) := by
  refine parseText_print ?_
  simp only [jobValue, finiteNumbers, finiteMembers, finiteElements_strings, Bool.and_self]

/-- For every name and every argument list, and however the line of the pipe
    is spelled, both front ends start the program of that name, in the
    background; the shell's has one argument more, so the two never agree. -/
theorem submissions_differ (e : List Char) (args : List (List Char)) (fifo : Bytes)
    (he : IsWord (Utf8.encode e)) (hcd : Utf8.encode e ≠ ascii "cd")
    (hexit : Utf8.encode e ≠ ascii "exit") (hargs : ∀ a ∈ args, IsWord (Utf8.encode a))
    (hplain : ∀ a ∈ args, ¬ IsControl (Utf8.encode a))
    (hfifo : parseText fifo = some (jobValue e args)) :
    ¬ Agree (shellLine (Utf8.encode e) (args.map Utf8.encode)) fifo ∧
      ∃ path argv,
        startedByShell (shellLine (Utf8.encode e) (args.map Utf8.encode))
          = some ⟨path, path :: argv, true⟩ ∧
        startedByDaemon fifo = some ⟨path, argv, true⟩ := by
  have hshell := startedByShell_shellLine he hcd hexit (List.forall_mem_map.mpr hargs)
    (List.forall_mem_map.mpr hplain)
  have hdaemon := startedByDaemon_jobValue he.nonempty hcd hexit hfifo
  refine ⟨?_, _, _, hshell, hdaemon⟩
  rintro ⟨p, hp, hq⟩
  -- The two vectors have different lengths.
  rw [hshell] at hp
  rw [hdaemon, ← hp] at hq
  have hargv := congrArg Invocation.argv (Option.some.inj hq)
  have hlength := congrArg List.length hargv
  simp only [List.length_cons] at hlength
  omega

/-- `/bin/echo hi`, started both ways. -/
theorem submissions_differ_echo :
    ¬ Agree (shellLine (Utf8.encode "/bin/echo".toList) (["hi".toList].map Utf8.encode))
        (Utf8.encode (JsonText.print (jobValue "/bin/echo".toList ["hi".toList]))) ∧
      ∃ path argv,
        startedByShell (shellLine (Utf8.encode "/bin/echo".toList)
          (["hi".toList].map Utf8.encode)) = some ⟨path, path :: argv, true⟩ ∧
        startedByDaemon (Utf8.encode (JsonText.print
          (jobValue "/bin/echo".toList ["hi".toList]))) = some ⟨path, argv, true⟩ :=
  submissions_differ _ _ _ (by decide) (by decide) (by decide)
    (List.forall_mem_singleton.mpr (by decide))
    (List.forall_mem_singleton.mpr (by unfold IsControl; decide)) (parseText_jobValue _ _)

/-- A program without arguments is given its name by the shell and nothing at
    all by the daemon. -/
theorem bare_submission_differs : ¬ ∀ (e : List Char) (args : List (List Char)) (fifo : Bytes),
    IsWord (Utf8.encode e) → Utf8.encode e ≠ ascii "cd" → Utf8.encode e ≠ ascii "exit" →
    (∀ a ∈ args, IsWord (Utf8.encode a)) → (∀ a ∈ args, ¬ IsControl (Utf8.encode a)) →
    parseText fifo = some (jobValue e args) →
    Agree (shellLine (Utf8.encode e) (args.map Utf8.encode)) fifo := by
  intro h
  have he : IsWord (Utf8.encode "/a".toList) := by decide
  rcases h "/a".toList [] _ he (by decide) (by decide) (List.forall_mem_nil _)
    (List.forall_mem_nil _) (parseText_jobValue _ _) with ⟨p, hp, hq⟩
  rw [startedByDaemon_jobValue he.nonempty (by decide) (by decide) (parseText_jobValue _ _)] at hq
  rw [List.map_nil, startedByShell_shellLine he (by decide) (by decide) (List.forall_mem_nil _)
    (List.forall_mem_nil _), ← hq] at hp
  exact absurd (Option.some.inj hp) (by decide)

end Invocation

end Isolyx
