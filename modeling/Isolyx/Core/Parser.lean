import Isolyx.Core.Command
import Isolyx.Library.Split

/-!
# The Line Parser

`Parser::parseLine`: the line is read word by word, the way `operator>>` reads
a string stream in the default locale. The first word is the executable and
the first argument. Of the words after it, `&`, `>` and `<` are control words
wherever they stand, the latter two taking the word that follows, and every
other word is an argument. A later redirection replaces an earlier one.

`Parser::parsePipeline` reads a line of several commands, each up to the next
`|`, which is a delimiter inside a word as well.

## Main definitions

* `words`: The words of a line.
* `parseLine`: The command of a line.
* `parsePipeline`: The commands of a line with pipes.
-/

namespace Isolyx

namespace Parser

/-- `std::isspace` in the default locale. -/
def isSpace (b : UInt8) : Bool := b = 0x20 || 0x09 ≤ b && b ≤ 0x0D

/-- The words of a line, given the beginning of one already read. -/
def wordsFrom (word : Bytes) : Bytes → List Bytes
  | [] => if word.isEmpty then [] else [word]
  | b :: s =>
      if isSpace b then
        if word.isEmpty then wordsFrom [] s else word :: wordsFrom [] s
      else wordsFrom (word ++ [b]) s

/-- Bytes that are no space go on with the word. -/
theorem wordsFrom_append (word : Bytes) {w : Bytes} (s : Bytes)
    (h : ∀ b ∈ w, isSpace b = false) : wordsFrom word (w ++ s) = wordsFrom (word ++ w) s := by
  induction w generalizing word with
  | nil => rw [List.nil_append, List.append_nil]
  | cons b w ih =>
      have hb : ¬ isSpace b = true := by
        rw [h b List.mem_cons_self]
        exact Bool.false_ne_true
      rw [List.cons_append, wordsFrom, if_neg hb, ih (word ++ [b]) fun c hc =>
        h c (List.mem_cons_of_mem b hc), List.append_assoc, List.singleton_append]

/-- The words of a line. -/
def words (input : Bytes) : List Bytes := wordsFrom [] input

/-- The loop over the words after the first. -/
def parseWords (cmd : Command) : List Bytes → Command
  | [] => cmd
  | token :: rest =>
      if token = ascii "&" then parseWords { cmd with isBackground := true } rest
      -- `if (iss >> token)`: at the end of the line nothing is taken
      else if token = ascii ">" then match rest with
        | [] => cmd
        | path :: rest => parseWords { cmd with redirectOutput := path } rest
      else if token = ascii "<" then match rest with
        | [] => cmd
        | path :: rest => parseWords { cmd with redirectInput := path } rest
      else parseWords { cmd with arguments := cmd.arguments ++ [token] } rest

/-- `Parser::parseLine`. -/
def parseLine (input : Bytes) : Command :=
  match words input with
  | [] => {}
  | token :: rest => parseWords { executable := token, arguments := [token] } rest

def pipe : UInt8 := 0x7C

/-- `Parser::parsePipeline`. -/
def parsePipeline (input : Bytes) : List Command := (Split.segments pipe input).map parseLine

end Parser

end Isolyx
