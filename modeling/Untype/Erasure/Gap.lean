-- What becomes of the white space and comments around removed syntax. What
-- has to stay waits for the next token that is kept and moves in front of it.
import Untype.Text.Comments
import Untype.Text.Indent

namespace Untype.Erasure

open Text

/-- How a piece is removed, and with it the trivia of its tokens. -/
inductive Removal where
  /-- A whole statement, member or list element, with the comments about it. -/
  | unit
  /-- A modifier in front of something kept. -/
  | modifier
  /-- Syntax that opens an expression. -/
  | opening
  /-- Syntax inside a line; its comments stay. -/
  | inside
  /-- Syntax whose comments go as well. -/
  | silent
deriving DecidableEq, Repr

/-- The text up to its last newline, that one included, and the text after it. -/
def splitAtLastNewline? (text : String) : Option (String × String) :=
  let reversed := text.toList.reverse
  match reversed.dropWhile fun c => !isNewline c with
  | [] => none
  | line =>
    some (String.ofList line.reverse,
      String.ofList (reversed.takeWhile fun c => !isNewline c).reverse)

/-- The trivia between two kept tokens, from the trivia `removed` in front of the first removed
token and the trivia `own` of the token kept after it. At the `first` place of a list the
former wins, later only its comments count. -/
def join (removed own : String) (first : Bool) : String :=
  if !first && !hasComments removed then
    own
  else if removed.isEmpty then
    trimStart own
  else if hasComments own then
    removed ++ trimStart own
  else
    match splitAtLastNewline? removed, splitAtLastNewline? own with
    | some (before, _), some (_, after) => before ++ after
    | none, some _ => if hasComments removed then removed else own
    | _, none => removed

/-- The same at the end of the file, where only comments keep anything. -/
def joinAtEnd (removed own : String) : String :=
  if hasComments removed then removed ++ trimStart own else own

/-- The number of newlines. A CR and LF are one. -/
def newlineCount : List Char → Nat
  | [] => 0
  | '\r' :: '\n' :: rest => newlineCount rest + 1
  | c :: rest => newlineCount rest + (if isNewline c then 1 else 0)

/-- The number of line breaks between comments. Breaks other than newlines count as one at
most, and only without newlines. -/
def breakCount (text : String) : Nat :=
  match newlineCount text.toList with
  | 0 => if hasLineBreak text then 1 else 0
  | n + 1 => n + 1

/-- Where the comments about a removed unit begin, given the comments before the offset `cut`,
the last one first. A comment is about the unit if it is a line or a documentation comment,
no directive, and if no blank line follows. -/
def cutBefore (trivia : String) (cut : Nat) : List Comment → Nat
  | [] => cut
  | comment :: rest =>
    if 2 ≤ breakCount (slice trivia comment.stop cut) then cut
    else if comment.isDirective trivia then cut
    else if comment.kind == .line || comment.isDocumentation trivia then
      cutBefore trivia comment.start rest
    else cut

/-- The trivia in front of a removed unit without the comments about it. -/
def unitGap (trivia : String) : String :=
  slice trivia 0 (cutBefore trivia trivia.utf8ByteSize (comments trivia).reverse)

/-- The comments that stay when syntax inside a line goes. A line comment at the end needs its
line break. -/
def insideComments (trivia : String) : String :=
  if hasComments trivia then
    let piece := trimEnd trivia
    match (comments piece).getLast? with
    | some comment => if comment.kind == .line then piece ++ "\n" else piece
    | none => piece
  else
    ""

/-- Trivia on its way to the next kept token. -/
structure Pending where
  /-- Comments from inside removed syntax. -/
  inherited : String := ""
  /-- The trivia of the first removed piece, and whether it stood first in its list. -/
  gap : Option (String × Bool) := none
deriving DecidableEq, Repr

namespace Pending

def isEmpty (pending : Pending) : Bool := pending.inherited.isEmpty && pending.gap.isNone

/-- Adds the trivia of a removed piece. Of several pieces in a row the first one counts. -/
def collapse (pending : Pending) (gap : String) (first : Bool) : Pending :=
  { pending with gap := pending.gap.or (some (gap, first)) }

def inherit (pending : Pending) (comments : String) : Pending :=
  { pending with inherited := pending.inherited ++ comments }

/-- The trivia of the next kept token, whose own trivia is `own`. -/
def apply (pending : Pending) (own : String) (atEnd : Bool) : String :=
  let base :=
    match pending.gap with
    | some (gap, first) => if atEnd then joinAtEnd gap own else join gap own first
    | none => own
  if pending.inherited.isEmpty then
    base
  else
    let apart := base.toList.head?.any isWhiteSpace ||
      pending.inherited.toList.getLast?.any isWhiteSpace
    pending.inherited ++ (if apart then "" else " ") ++ base

end Pending

/-- A character of names, numbers and escapes. -/
def isWordChar (c : Char) : Bool := isLetterOrNumber c || c == '_' || c == '$' || c == '\\'

/-- Two tokens that would be read as one if these characters of theirs met. -/
def needsSeparator (previous next : Char) : Bool :=
  (isWordChar previous && isWordChar next) || (previous == '+' && next == '+') ||
    (previous == '-' && next == '-') || (previous == '/' && next == '/')

/-- A line that starts like this can go on with the expression of the line before. -/
def continuesExpression (c : Char) : Bool :=
  ['(', '[', '\x60', '+', '-', '/', '<', '*'].contains c

end Untype.Erasure
