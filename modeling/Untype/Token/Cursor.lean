-- Places in a text, and the pieces of tokens that are read from one.
import Untype.Text.Chars
import Untype.Text.Slice

namespace Untype

open Untype.Text

/-- A place in a text: its byte offset and the characters from there on. -/
structure Cursor where
  offset : Nat
  rest : List Char
deriving DecidableEq, Repr

namespace Cursor

def ofText (text : String) : Cursor := ⟨0, text.toList⟩

def skip : Nat → Cursor → Cursor
  | 0, here => here
  | _ + 1, ⟨offset, []⟩ => ⟨offset, []⟩
  | n + 1, ⟨offset, c :: rest⟩ => skip n ⟨offset + c.utf8Size, rest⟩

def textTo (start stop : Cursor) : String :=
  String.ofList (takeBytes (stop.offset - start.offset) start.rest)

def skipWhile (p : Char → Bool) (offset : Nat) : List Char → Cursor
  | [] => ⟨offset, []⟩
  | c :: rest => if p c then skipWhile p (offset + c.utf8Size) rest else ⟨offset, c :: rest⟩

end Cursor

/-! ## Digits -/

/-- How many digits stand in front. An underscore counts after the first of them. -/
def digitCount (isValid : Char → Bool) (started : Bool) : List Char → Nat
  | [] => 0
  | c :: rest =>
    if isValid c || (c == '_' && started) then digitCount isValid true rest + 1 else 0

def Cursor.skipDigits (isValid : Char → Bool) (here : Cursor) : Cursor :=
  here.skip (digitCount isValid false here.rest)

/-- Passes over an exponent, if `e` and at least one digit are in front. -/
def Cursor.skipExponent (here : Cursor) : Cursor :=
  match here.rest with
  | e :: rest =>
    if e == 'e' || e == 'E' then
      match rest with
      | sign :: digits =>
        if (sign == '+' || sign == '-') && digits.head?.any isDigit then
          (here.skip 2).skipDigits isDigit
        else if isDigit sign then
          (here.skip 1).skipDigits isDigit
        else
          here
      | [] => here
    else
      here
  | [] => here

def Cursor.skipDecimal (here : Cursor) : Cursor :=
  let whole := here.skipDigits isDigit
  let fraction := if whole.rest.head? == some '.' then (whole.skip 1).skipDigits isDigit else whole
  fraction.skipExponent

/-! ## Quoted texts -/

/-- How a quoted text ends: `stop` is the place after it. -/
structure QuotedEnd where
  stop : Cursor
  terminated : Bool
deriving DecidableEq, Repr

/-- Reads a string after its opening quote. A line feed or a carriage return ends it without
a closing quote, unless a backslash stands before it. -/
def stringEnd (quote : Char) (offset : Nat) : List Char → QuotedEnd
  | [] => ⟨⟨offset, []⟩, false⟩
  | '\\' :: '\r' :: '\n' :: rest => stringEnd quote (offset + 3) rest
  | '\\' :: c :: rest => stringEnd quote (offset + 1 + c.utf8Size) rest
  | c :: rest =>
    if c == quote then ⟨⟨offset + 1, rest⟩, true⟩
    else if c == '\n' || c == '\r' then ⟨⟨offset, c :: rest⟩, false⟩
    else stringEnd quote (offset + c.utf8Size) rest

/-- Reads the value of an attribute after its opening quote: no escapes, and any line may
follow. -/
def attributeEnd (quote : Char) (offset : Nat) : List Char → QuotedEnd
  | [] => ⟨⟨offset, []⟩, false⟩
  | c :: rest =>
    if c == quote then ⟨⟨offset + c.utf8Size, rest⟩, true⟩
    else attributeEnd quote (offset + c.utf8Size) rest

/-- What ends a piece of a template. -/
inductive TemplateStop where
  | backtick
  | substitution
  | endOfText
deriving DecidableEq, Repr

/-- Reads a piece of a template, after a backtick or the brace that ends a substitution. -/
def templateEnd (offset : Nat) : List Char → Cursor × TemplateStop
  | [] => (⟨offset, []⟩, .endOfText)
  | '\x60' :: rest => (⟨offset + 1, rest⟩, .backtick)
  | '$' :: '\x7b' :: rest => (⟨offset + 2, rest⟩, .substitution)
  | '\\' :: '\r' :: '\n' :: rest => templateEnd (offset + 3) rest
  | '\\' :: c :: rest => templateEnd (offset + 1 + c.utf8Size) rest
  | c :: rest => templateEnd (offset + c.utf8Size) rest

/-- Reads a regular expression after its opening slash, without its flags. A slash inside
brackets does not close it. -/
def regularExpressionEnd (inClass : Bool) (offset : Nat) : List Char → QuotedEnd
  | [] => ⟨⟨offset, []⟩, false⟩
  | '\\' :: rest =>
    match rest with
    | [] => ⟨⟨offset + 1, []⟩, false⟩
    | c :: rest =>
      if isLineBreak c then ⟨⟨offset + 1, c :: rest⟩, false⟩
      else regularExpressionEnd inClass (offset + 1 + c.utf8Size) rest
  | c :: rest =>
    if isLineBreak c then ⟨⟨offset, c :: rest⟩, false⟩
    else if c == '/' && !inClass then ⟨⟨offset + 1, rest⟩, true⟩
    else
      let inClass := if c == '[' then true else if c == ']' then false else inClass
      regularExpressionEnd inClass (offset + c.utf8Size) rest

/-! ## Names -/

/-- How many characters an escape has after its backslash and `u`, and whether it is a good
one. -/
def escapeExtent (cs : List Char) : Nat × Bool :=
  match cs with
  | '\x7b' :: rest =>
    let digits := digitCount isHexDigit false rest
    if (rest.drop digits).head? == some '\x7d' then (digits + 2, digits != 0)
    else (digits + 1, false)
  | _ =>
    let digits := min 4 (cs.takeWhile isHexDigit).length
    (digits, digits == 4)

/-- The end of a name and what its escapes did: whether there are any, and the ranges of the
bad ones, in order. -/
structure NameEnd where
  stop : Cursor
  hasEscape : Bool
  badEscapes : List (Nat × Nat)
deriving DecidableEq, Repr

/-- Passes over the characters of a name. The fuel is at least their number. -/
def nameEndFrom : Nat → NameEnd → NameEnd
  | 0, name => name
  | fuel + 1, name =>
    match name.stop.rest with
    | [] => name
    | c :: rest =>
      if isNamePart c then
        nameEndFrom fuel { name with stop := name.stop.skip 1 }
      else if c == '\\' && rest.head? == some 'u' then
        let (extent, good) := escapeExtent (rest.drop 1)
        let stop := name.stop.skip (extent + 2)
        let badEscapes := if good then name.badEscapes
          else name.badEscapes ++ [(name.stop.offset, stop.offset)]
        nameEndFrom fuel ⟨stop, true, badEscapes⟩
      else
        name

def nameEnd (here : Cursor) : NameEnd := nameEndFrom (here.rest.length + 1) ⟨here, false, []⟩

end Untype
