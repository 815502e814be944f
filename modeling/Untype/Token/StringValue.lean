-- The value of a string as it is written.
import Untype.Number.Literal
import Untype.Text.Chars

namespace Untype

open Untype.Text

/-- The character with this code point. Surrogates have none. -/
def charOfCode? (code : Nat) : Option Char :=
  if h : code.isValidChar then some (Char.ofNatAux code h) else none

def charOfHex? (digits : List Char) : Option Char :=
  (Number.readWhole 16 0x100000000 digits).bind charOfCode?

def escapedLetter? (c : Char) : Option Char :=
  if c == 'n' then some '\n'
  else if c == 't' then some '\t'
  else if c == 'r' then some '\r'
  else if c == 'b' then some '\x08'
  else if c == 'f' then some '\x0c'
  else if c == 'v' then some '\x0b'
  else none

/-- The value of what stands between the quotes. Inside an escape with braces, `code` holds
its digits so far, in reverse. -/
def unescape (code : Option (List Char)) (cs : List Char) : Option (List Char) :=
  match code, cs with
  | some digits, [] => (charOfHex? digits.reverse).map fun c => [c]
  | some digits, '\x7d' :: rest =>
    match charOfHex? digits.reverse with
    | some c => (unescape none rest).map (c :: ·)
    | none => none
  | some digits, c :: rest => unescape (some (c :: digits)) rest
  | none, [] => some []
  | none, ['\\'] => none
  | none, '\\' :: '0' :: rest =>
    (unescape none rest).map ((if rest.head?.any isDigit then '0' else '\x00') :: ·)
  | none, '\\' :: 'x' :: a :: b :: rest =>
    match charOfHex? [a, b] with
    | some c => (unescape none rest).map (c :: ·)
    | none => none
  | none, '\\' :: 'x' :: digits => (charOfHex? digits).map fun c => [c]
  | none, '\\' :: 'u' :: '\x7b' :: rest => unescape (some []) rest
  | none, '\\' :: 'u' :: a :: b :: c :: d :: rest =>
    match charOfHex? [a, b, c, d] with
    | some c => (unescape none rest).map (c :: ·)
    | none => none
  | none, '\\' :: 'u' :: digits => (charOfHex? digits).map fun c => [c]
  | none, '\\' :: '\r' :: '\n' :: rest => unescape none rest
  | none, '\\' :: c :: rest =>
    if isLineBreak c then unescape none rest
    else (unescape none rest).map ((escapedLetter? c).getD c :: ·)
  | none, c :: rest => (unescape none rest).map (c :: ·)

/-- The value of a string literal with its quotes, if it is well formed. -/
def stringValue? (literal : String) : Option String :=
  match literal.toList with
  | quote :: rest =>
    if (quote == '\x22' || quote == '\x27' || quote == '\x60') && rest.getLast? == some quote then
      (unescape none rest.dropLast).map String.ofList
    else
      none
  | [] => none

end Untype
