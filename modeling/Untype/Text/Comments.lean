-- The comments of a piece of trivia, that is of the text between two tokens.
import Untype.Text.Chars
import Untype.Text.Slice

namespace Untype.Text

inductive CommentKind where
  | line
  | block
deriving DecidableEq, Repr

/-- A comment by its byte range. -/
structure Comment where
  start : Nat
  stop : Nat
  kind : CommentKind
  /-- A line break follows before any other comment or code. -/
  newlineAfter : Bool
deriving DecidableEq, Repr

/-- A newline comes before anything but blanks. -/
def newlineBeforeCode : List Char → Bool
  | [] => false
  | c :: rest =>
    if c == '\n' || c == '\r' then true
    else if c == ' ' || c == '\t' || c == '\x0b' || c == '\x0c' then newlineBeforeCode rest
    else false

/-- Where the reader of comments stands: in none, or in one that began at `start`. -/
inductive CommentMode where
  | outside
  | inLine (start : Nat)
  | inBlock (start : Nat)

/-- The comments of `cs`, whose first character stands at `offset`. -/
def commentsFrom (mode : CommentMode) (offset : Nat) (cs : List Char) : List Comment :=
  match mode, cs with
  | .outside, [] => []
  | .outside, '/' :: '/' :: rest => commentsFrom (.inLine offset) (offset + 2) rest
  | .outside, '/' :: '*' :: rest => commentsFrom (.inBlock offset) (offset + 2) rest
  | .outside, c :: rest => commentsFrom .outside (offset + c.utf8Size) rest
  | .inLine start, [] => [⟨start, offset, .line, false⟩]
  | .inLine start, c :: rest =>
    if c == '\n' || c == '\r' then
      ⟨start, offset, .line, true⟩ :: commentsFrom .outside (offset + 1) rest
    else
      commentsFrom (.inLine start) (offset + c.utf8Size) rest
  | .inBlock start, [] => [⟨start, offset, .block, false⟩]
  | .inBlock start, '*' :: '/' :: rest =>
    ⟨start, offset + 2, .block, newlineBeforeCode rest⟩ :: commentsFrom .outside (offset + 2) rest
  | .inBlock start, c :: rest => commentsFrom (.inBlock start) (offset + c.utf8Size) rest

/-- The comments of a text, in order. What is no comment is passed over. -/
def comments (text : String) : List Comment := commentsFrom .outside 0 text.toList

/-- The opening of a comment stands somewhere. -/
def opensComment : List Char → Bool
  | [] => false
  | '/' :: '/' :: _ => true
  | '/' :: '*' :: _ => true
  | _ :: rest => opensComment rest

def hasComments (text : String) : Bool := opensComment text.toList

def hasLineBreak (text : String) : Bool := text.toList.any isLineBreak

def Comment.text (comment : Comment) (text : String) : String :=
  slice text comment.start comment.stop

/-- A documentation comment: two stars open it, and it is neither `/**/` nor a row of stars. -/
def Comment.isDocumentation (comment : Comment) (text : String) : Bool :=
  match (comment.text text).toList with
  | ['/', '*', '*', '/'] => false
  | '/' :: '*' :: '*' :: '*' :: _ => false
  | '/' :: '*' :: '*' :: _ => true
  | _ => false

/-- A directive: three slashes open it. -/
def Comment.isDirective (comment : Comment) (text : String) : Bool :=
  match (comment.text text).toList with
  | '/' :: '/' :: '/' :: _ => true
  | _ => false

end Untype.Text
