import Isolyx.Theory.Submission

/-!
# Lines and the Commands they are Read as

`print` writes a command as a line: its arguments, then the redirections and
the background flag, whatever their order was in the line it was read from.
That order is all that is lost, since reading the written line gives the
command back (`parseLine_print`).

Which commands there are to write is an induction over the words of a line. A
word behind a redirection is taken whatever it is, so a path may be a control
word, and so may the executable, which is the first word; only the arguments
after it are not (`parseWords_canonical`).

A line with pipes is cut at every `|` before any word is read. The spaces that
`joinPipeline` writes around it go to the segments, where they change nothing
(`parseLine_space`).

## Main definitions

* `print`: A command as a line.
* `Canonical`: The commands that a line can be read as, but the empty one.
* `joinPipeline`: The lines of several commands with pipes between them.

## Theorems

* `words_isWord`: What is read from a line are words.
* `parseWords_canonical`: The loop over the words keeps a command canonical.
* `parseLine_print`: A written command is read back.
* `line_round_trip`: Reading, writing and reading again.
* `pipeline_parses`: What the commands of a line with pipes are.
-/

namespace Isolyx

namespace Parser

open Invocation (space)

/-- A command as a line. -/
def print (c : Command) : Bytes :=
  (ascii " ").intercalate c.arguments
    ++ (if c.redirectInput = [] then [] else ascii " < " ++ c.redirectInput)
    ++ (if c.redirectOutput = [] then [] else ascii " > " ++ c.redirectOutput)
    ++ (if c.isBackground then ascii " &" else [])

/-- The commands that a line can be read as, but the empty one. -/
structure Canonical (c : Command) : Prop where
  executable : IsWord c.executable
  arguments : ∃ args, c.arguments = c.executable :: args ∧ ∀ a ∈ args, IsWord a ∧ ¬ IsControl a
  redirectInput : c.redirectInput = [] ∨ IsWord c.redirectInput
  redirectOutput : c.redirectOutput = [] ∨ IsWord c.redirectOutput

/-! ## Reading -/

theorem wordsFrom_isWord {word : Bytes} (s : Bytes) (h : ∀ b ∈ word, isSpace b = false) :
    ∀ w ∈ wordsFrom word s, IsWord w := by
  induction s generalizing word with
  | nil =>
      intro w hw
      rw [wordsFrom] at hw
      split at hw
      · exact absurd hw List.not_mem_nil
      · rename_i hne
        rw [List.mem_singleton.mp hw]
        exact ⟨fun he => hne (List.isEmpty_iff.mpr he), h⟩
  | cons b s ih =>
      intro w hw
      rw [wordsFrom] at hw
      split at hw
      · -- a space ends the word, if one was begun
        have hnil : ∀ b ∈ ([] : Bytes), isSpace b = false := fun _ hb => absurd hb List.not_mem_nil
        split at hw
        · exact ih hnil w hw
        · rename_i hne
          rcases List.mem_cons.mp hw with rfl | hw
          · exact ⟨fun he => hne (List.isEmpty_iff.mpr he), h⟩
          · exact ih hnil w hw
      · rename_i hb
        refine ih (fun c hc => ?_) w hw
        rcases List.mem_append.mp hc with hc | hc
        · exact h c hc
        · rw [List.mem_singleton.mp hc]
          exact Bool.eq_false_iff.mpr hb

/-- What is read from a line are words. -/
theorem words_isWord (s : Bytes) : ∀ w ∈ words s, IsWord w :=
  wordsFrom_isWord s fun _ hb => absurd hb List.not_mem_nil

/-- The loop over the words keeps a command canonical. -/
theorem parseWords_canonical {cmd : Command} (hcmd : Canonical cmd) {ws : List Bytes}
    (hws : ∀ w ∈ ws, IsWord w) : Canonical (parseWords cmd ws) := by
  fun_induction parseWords cmd ws with
  | case1 cmd => exact hcmd
  | case2 cmd rest ih =>
      refine ih ⟨hcmd.executable, hcmd.arguments, hcmd.redirectInput, hcmd.redirectOutput⟩
        fun w hw => hws w (List.mem_cons_of_mem _ hw)
  | case3 cmd => exact hcmd
  | case4 cmd path rest _ ih =>
      have hpath := hws path (List.mem_cons_of_mem _ List.mem_cons_self)
      exact ih ⟨hcmd.executable, hcmd.arguments, hcmd.redirectInput, .inr hpath⟩
        fun w hw => hws w (List.mem_cons_of_mem _ (List.mem_cons_of_mem _ hw))
  | case5 cmd => exact hcmd
  | case6 cmd path rest _ _ ih =>
      have hpath := hws path (List.mem_cons_of_mem _ List.mem_cons_self)
      exact ih ⟨hcmd.executable, hcmd.arguments, .inr hpath, hcmd.redirectOutput⟩
        fun w hw => hws w (List.mem_cons_of_mem _ (List.mem_cons_of_mem _ hw))
  | case7 cmd token rest hamp hgt hlt ih =>
      -- what is no control word becomes the last argument
      have htoken : IsWord token ∧ ¬ IsControl token :=
        ⟨hws token List.mem_cons_self, fun hc => hc.elim hamp fun hc => hc.elim hgt hlt⟩
      rcases hcmd.arguments with ⟨args, hargs, hplain⟩
      refine ih ⟨hcmd.executable, ⟨args ++ [token], ?_, fun a ha => ?_⟩, hcmd.redirectInput,
        hcmd.redirectOutput⟩ fun w hw => hws w (List.mem_cons_of_mem _ hw)
      · simp only [hargs, List.cons_append]
      · rcases List.mem_append.mp ha with ha | ha
        · exact hplain a ha
        · exact List.mem_singleton.mp ha ▸ htoken

/-- A line with words is read as a canonical command. -/
theorem parseLine_canonical_of_words {s token : Bytes} {rest : List Bytes}
    (h : words s = token :: rest) : Canonical (parseLine s) := by
  have hws := words_isWord s
  rw [h] at hws
  have htoken := hws token List.mem_cons_self
  rw [parseLine, h]
  exact parseWords_canonical ⟨htoken, ⟨[], rfl, fun _ ha => absurd ha List.not_mem_nil⟩,
    .inl rfl, .inl rfl⟩ fun w hw => hws w (List.mem_cons_of_mem token hw)

/-- A line is read as the empty command or as a canonical one. -/
theorem parseLine_canonical (s : Bytes) : parseLine s = {} ∨ Canonical (parseLine s) := by
  cases h : words s with
  | nil =>
      left
      rw [parseLine, h]
  | cons token rest => exact .inr (parseLine_canonical_of_words h)

/-! ## Writing -/

theorem intercalate_cons {α : Type*} (sep : List α) (x : List α) (xs : List (List α)) :
    sep.intercalate (x :: xs) = x ++ xs.flatMap fun y => sep ++ y := by
  induction xs generalizing x with
  | nil => rw [List.intercalate_singleton, List.flatMap_nil, List.append_nil]
  | cons y xs ih =>
      rw [List.intercalate_cons_cons, ih, List.flatMap_cons, List.append_assoc, List.append_assoc]

/-- The words that stand behind the arguments. -/
def controlWords (c : Command) : List Bytes :=
  (if c.redirectInput = [] then [] else [ascii "<", c.redirectInput])
    ++ (if c.redirectOutput = [] then [] else [ascii ">", c.redirectOutput])
    ++ (if c.isBackground then [ascii "&"] else [])

/-- A written command is its words with one space between them. -/
theorem print_eq {c : Command} {args : List Bytes} (h : c.arguments = c.executable :: args) :
    print c = c.executable ++ (args ++ controlWords c).flatMap fun w => space :: w := by
  have hargs : (ascii " ").intercalate c.arguments
      = c.executable ++ args.flatMap fun w => space :: w := by
    rw [h, intercalate_cons]
    rfl
  have hin : (if c.redirectInput = [] then [] else ascii " < " ++ c.redirectInput)
      = (if c.redirectInput = [] then [] else [ascii "<", c.redirectInput]).flatMap
          fun w => space :: w := by
    split
    · rfl
    · rw [List.flatMap_cons, List.flatMap_singleton]
      rfl
  have hout : (if c.redirectOutput = [] then [] else ascii " > " ++ c.redirectOutput)
      = (if c.redirectOutput = [] then [] else [ascii ">", c.redirectOutput]).flatMap
          fun w => space :: w := by
    split
    · rfl
    · rw [List.flatMap_cons, List.flatMap_singleton]
      rfl
  have hback : (if c.isBackground then ascii " &" else [])
      = (if c.isBackground then [ascii "&"] else []).flatMap fun w => space :: w := by
    split
    · rfl
    · rfl
  rw [print, hargs, hin, hout, hback, controlWords, List.flatMap_append, List.flatMap_append,
    List.flatMap_append]
  simp only [List.append_assoc]

theorem controlWords_isWord {c : Command} (h : Canonical c) : ∀ w ∈ controlWords c, IsWord w := by
  have hops : IsWord (ascii "<") ∧ IsWord (ascii ">") ∧ IsWord (ascii "&") := by decide
  intro w hw
  rcases List.mem_append.mp hw with hw | hw
  · rcases List.mem_append.mp hw with hw | hw
    · split at hw
      · exact absurd hw List.not_mem_nil
      · rename_i hne
        rcases List.mem_cons.mp hw with rfl | hw
        · exact hops.1
        · exact List.mem_singleton.mp hw ▸ h.redirectInput.resolve_left hne
    · split at hw
      · exact absurd hw List.not_mem_nil
      · rename_i hne
        rcases List.mem_cons.mp hw with rfl | hw
        · exact hops.2.1
        · exact List.mem_singleton.mp hw ▸ h.redirectOutput.resolve_left hne
  · split at hw
    · exact List.mem_singleton.mp hw ▸ hops.2.2
    · exact absurd hw List.not_mem_nil

theorem parseWords_input (cmd : Command) (path : Bytes) (rest : List Bytes) :
    parseWords cmd (ascii "<" :: path :: rest)
      = parseWords { cmd with redirectInput := path } rest := rfl

theorem parseWords_output (cmd : Command) (path : Bytes) (rest : List Bytes) :
    parseWords cmd (ascii ">" :: path :: rest)
      = parseWords { cmd with redirectOutput := path } rest := rfl

theorem parseWords_background (cmd : Command) (rest : List Bytes) :
    parseWords cmd (ascii "&" :: rest) = parseWords { cmd with isBackground := true } rest := by
  rw [parseWords.eq_def]
  simp only [if_true]

theorem parseWords_nil (cmd : Command) : parseWords cmd [] = cmd := rfl

/-- The words behind the arguments give the rest of the command. -/
theorem parseWords_controlWords (c : Command) (executable : Bytes) (arguments : List Bytes) :
    parseWords { executable := executable, arguments := arguments } (controlWords c)
      = { c with executable := executable, arguments := arguments } := by
  rcases c with ⟨_, _, isBackground, redirectInput, redirectOutput⟩
  unfold controlWords
  by_cases hin : redirectInput = [] <;> by_cases hout : redirectOutput = [] <;>
    cases isBackground <;>
    simp only [hin, hout, if_true, if_false, Bool.false_eq_true, List.nil_append, List.append_nil,
      List.cons_append, parseWords_input, parseWords_output, parseWords_background, parseWords_nil]

/-- A written command is read back. -/
theorem parseLine_print {c : Command} (h : Canonical c) : parseLine (print c) = c := by
  rcases h.arguments with ⟨args, hargs, hplain⟩
  have hwords : words (print c) = c.executable :: (args ++ controlWords c) := by
    rw [print_eq hargs]
    refine words_join h.executable fun w hw => ?_
    rcases List.mem_append.mp hw with hw | hw
    · exact (hplain w hw).1
    · exact controlWords_isWord h w hw
  have hline : parseLine (print c)
      = parseWords { executable := c.executable, arguments := [c.executable] }
          (args ++ controlWords c) := by
    rw [parseLine, hwords]
  rw [hline, parseWords_plain _ _ fun a ha => (hplain a ha).2]
  simp only [List.singleton_append, ← hargs]
  exact parseWords_controlWords c c.executable c.arguments

theorem parseLine_print_empty : parseLine (print {}) = {} := rfl

/-- Reading a line, writing the command and reading again changes nothing. The
    commands that can be read are the empty one and the canonical ones, and
    each of them is read from the line it is written as. -/
theorem line_round_trip :
    (∀ s : Bytes, parseLine (print (parseLine s)) = parseLine s) ∧
    (∀ c : Command, (∃ s, parseLine s = c) ↔ c = {} ∨ Canonical c) ∧
    ∀ c : Command, c = {} ∨ Canonical c → parseLine (print c) = c := by
  have hback : ∀ c : Command, c = {} ∨ Canonical c → parseLine (print c) = c := by
    rintro c (rfl | hc)
    · exact parseLine_print_empty
    · exact parseLine_print hc
  refine ⟨fun s => hback _ (parseLine_canonical s), fun c => ⟨?_, fun hc => ⟨_, hback c hc⟩⟩, hback⟩
  rintro ⟨s, rfl⟩
  exact parseLine_canonical s

/-! ## Lines with pipes -/

/-- The lines of several commands, with a pipe between them. -/
def joinPipeline (cs : List Command) : Bytes := (ascii " | ").intercalate (cs.map print)

/-- No word of the command has a pipe in it. -/
structure NoPipe (c : Command) : Prop where
  arguments : ∀ a ∈ c.arguments, pipe ∉ a
  redirectInput : pipe ∉ c.redirectInput
  redirectOutput : pipe ∉ c.redirectOutput

theorem words_space (s : Bytes) : words (space :: s) = words s := rfl

theorem wordsFrom_append_space (word s : Bytes) :
    wordsFrom word (s ++ [space]) = wordsFrom word s := by
  induction s generalizing word with
  | nil =>
      rw [List.nil_append, wordsFrom, wordsFrom, if_pos (show isSpace space = true by decide)]
      rfl
  | cons b s ih => rw [List.cons_append, wordsFrom, wordsFrom, ih, ih]

/-- Spaces around a line change nothing. -/
theorem parseLine_space (s : Bytes) :
    parseLine (space :: s) = parseLine s ∧ parseLine (s ++ [space]) = parseLine s := by
  constructor
  · rw [parseLine, parseLine, words_space]
  · have hwords : words (s ++ [space]) = words s := wordsFrom_append_space [] s
    rw [parseLine, parseLine, hwords]

theorem not_mem_print {c : Command} (h : NoPipe c) : pipe ∉ print c := by
  have hops : pipe ∉ ascii " < " ∧ pipe ∉ ascii " > " ∧ pipe ∉ ascii " &" := by decide
  have hargs : pipe ∉ (ascii " ").intercalate c.arguments := by
    cases hc : c.arguments with
    | nil => exact List.not_mem_nil
    | cons a args =>
        have hmem := h.arguments
        rw [hc] at hmem
        rw [intercalate_cons, List.mem_append, List.mem_flatMap]
        rintro (ha | ⟨w, hw, hb⟩)
        · exact hmem a List.mem_cons_self ha
        · rcases List.mem_append.mp hb with hb | hb
          · exact absurd hb (by decide)
          · exact hmem w (List.mem_cons_of_mem a hw) hb
  simp only [print, List.mem_append, not_or]
  refine ⟨⟨⟨hargs, ?_⟩, ?_⟩, ?_⟩
  · split
    · exact List.not_mem_nil
    · exact fun hb => (List.mem_append.mp hb).elim hops.1 h.redirectInput
  · split
    · exact List.not_mem_nil
    · exact fun hb => (List.mem_append.mp hb).elim hops.2.1 h.redirectOutput
  · split
    · exact hops.2.2
    · exact List.not_mem_nil

theorem joinPipeline_cons (c d : Command) (cs : List Command) :
    joinPipeline (c :: d :: cs)
      = (print c ++ [space]) ++ pipe :: space :: joinPipeline (d :: cs) := by
  rw [joinPipeline, List.map_cons, List.map_cons, List.intercalate_cons_cons, joinPipeline,
    List.map_cons, List.append_assoc, List.append_assoc]
  rfl

/-- Written commands are cut at the pipes between them, and the spaces around
    those change nothing. -/
theorem parse_joinPipeline {c : Command} {cs : List Command} (hcs : ∀ d ∈ c :: cs, NoPipe d)
    (hne : ∀ d ∈ c :: cs, print d ≠ []) (pre : Bytes) (hpre : pre = [] ∨ pre = [space]) :
    parsePipeline (pre ++ joinPipeline (c :: cs)) = (c :: cs).map fun d => parseLine (print d) := by
  have hfront : ∀ s, parseLine (pre ++ s) = parseLine s := by
    rcases hpre with rfl | rfl
    · exact fun s => rfl
    · exact fun s => (parseLine_space s).1
  have hpipe : pipe ∉ pre ++ print c := by
    rw [List.mem_append, not_or]
    refine ⟨?_, not_mem_print (hcs c List.mem_cons_self)⟩
    rcases hpre with rfl | rfl
    · exact List.not_mem_nil
    · decide
  cases cs with
  | nil =>
      have hsome : pre ++ print c ≠ [] := fun he =>
        hne c List.mem_cons_self (List.append_eq_nil_iff.mp he).2
      rw [joinPipeline, List.map_singleton, List.intercalate_singleton, parsePipeline,
        Split.segments_of_not_mem hsome hpipe, List.map_singleton, hfront, List.map_singleton]
  | cons d cs =>
      have hrest := parse_joinPipeline (fun e he => hcs e (List.mem_cons_of_mem c he))
        (fun e he => hne e (List.mem_cons_of_mem c he)) [space] (.inr rfl)
      have hsegment : pipe ∉ pre ++ print c ++ [space] := by
        rw [List.mem_append, not_or]
        exact ⟨hpipe, by decide⟩
      have hline : pre ++ joinPipeline (c :: d :: cs)
          = (pre ++ print c ++ [space]) ++ pipe :: ([space] ++ joinPipeline (d :: cs)) := by
        rw [joinPipeline_cons]
        simp only [List.append_assoc, List.singleton_append]
      rw [hline, parsePipeline, Split.segments_append _ hsegment, List.map_cons, ← parsePipeline,
        hrest, List.map_cons (a := c), (parseLine_space _).2, hfront]
termination_by cs

theorem print_ne_nil {c : Command} (h : Canonical c) : print c ≠ [] := by
  rcases h.arguments with ⟨args, hargs, -⟩
  rw [print_eq hargs]
  exact fun he => h.executable.nonempty (List.append_eq_nil_iff.mp he).1

/-- The commands of a line with pipes: written ones come back, a line without a
    pipe is one command, and the number of commands is read off the line. -/
theorem pipeline_parses :
    (∀ cs : List Command, cs ≠ [] →
      (∀ c ∈ cs, (∃ s, parseLine s = c) ∧ c.isEmpty = false ∧ NoPipe c) →
        parsePipeline (joinPipeline cs) = cs) ∧
    (∀ s : Bytes, s ≠ [] → pipe ∉ s → parsePipeline s = [parseLine s]) ∧
    ∀ s : Bytes, (parsePipeline s).length + (if s = [] ∨ s.getLast? = some pipe then 1 else 0)
      = s.count pipe + 1 := by
  refine ⟨fun cs hsome hcs => ?_, fun s hne hs => ?_, fun s => ?_⟩
  · have hcanonical : ∀ c ∈ cs, Canonical c := by
      intro c hc
      rcases hcs c hc with ⟨⟨s, rfl⟩, hempty, -⟩
      refine (parseLine_canonical s).resolve_left fun he => ?_
      rw [he] at hempty
      exact Bool.noConfusion hempty
    cases cs with
    | nil => exact absurd rfl hsome
    | cons c cs =>
        have hall := parse_joinPipeline (fun d hd => (hcs d hd).2.2)
          (fun d hd => print_ne_nil (hcanonical d hd)) [] (.inl rfl)
        rw [List.nil_append] at hall
        rw [hall]
        exact (List.map_congr_left fun d hd => parseLine_print (hcanonical d hd)).trans
          (List.map_id _)
  · rw [parsePipeline, Split.segments_of_not_mem hne hs, List.map_singleton]
  · rw [parsePipeline, List.length_map]
    exact Split.length_segments s

end Parser

end Isolyx
