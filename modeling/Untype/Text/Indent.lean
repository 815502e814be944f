-- The indentation that a text already uses, so that inserted lines can
-- follow it.
import Untype.Text.Chars

namespace Untype.Text

/-- LF and CR, the two breaks that indentation looks at. -/
def isNewline (c : Char) : Bool := c == '\n' || c == '\r'

/-- What follows the last newline before the offset `pos`. The characters stand at `offset`
and later, and `line` is the answer so far. -/
def lineFrom (pos : Nat) (offset : Nat) (line : List Char) : List Char → List Char
  | [] => line
  | c :: rest =>
    if offset < pos then
      lineFrom pos (offset + c.utf8Size) (if isNewline c then rest else line) rest
    else
      line

/-- The blanks and tabs at the front of the line that holds the offset `pos`. -/
def lineIndent (text : String) (pos : Nat) : String :=
  let line := lineFrom pos 0 text.toList text.toList
  String.ofList (line.takeWhile fun c => c == ' ' || c == '\t')

/-- What follows the last newline, if there is a newline. -/
def trailingIndent? (trivia : String) : Option String :=
  let reversed := trivia.toList.reverse
  if reversed.any isNewline then
    some (String.ofList (reversed.takeWhile fun c => !isNewline c).reverse)
  else
    none

def spaces (width : Nat) : String := String.ofList (List.replicate width ' ')

def defaultIndentUnit : String := spaces 4

def linesOf : List Char → List (List Char)
  | [] => [[]]
  | c :: rest =>
    if c == '\n' then
      [] :: linesOf rest
    else
      match linesOf rest with
      | [] => [[c]]
      | line :: lines => (c :: line) :: lines

/-- The unit of the lines that remain, after lines whose least step was `smallest` and of
which the last is `previous` blanks deep. Lines of white space say nothing. -/
def unitFrom (smallest : Option Nat) (previous : Nat) : List (List Char) → String
  | [] =>
    match smallest with
    | some width => if 0 < width ∧ width ≤ 8 then spaces width else defaultIndentUnit
    | none => defaultIndentUnit
  | line :: lines =>
    if line.all isWhiteSpace then
      unitFrom smallest previous lines
    else if line.head? == some '\t' then
      if smallest.isNone then "\t" else unitFrom smallest previous lines
    else
      let width := (line.takeWhile (· == ' ')).length
      let smallest := if previous < width then
          some (match smallest with
            | some least => min least (width - previous)
            | none => width - previous)
        else
          smallest
      unitFrom smallest width lines

/-- The indent unit of a text: a tab if the first indented line starts with one, else the
least step from a line to a deeper one. -/
def indentUnit (text : String) : String := unitFrom none 0 (linesOf text.toList)

end Untype.Text
