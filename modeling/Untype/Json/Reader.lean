-- Reading JSON, with the place and the cause of what is wrong with a text.
import Untype.Json.Basic
import Untype.Text.Encoding

namespace Untype.Json

/-! ## Faults -/

inductive Cause where
  | endOfList
  | endOfObject
  | endOfString
  | endOfValue
  | colonExpected
  | listCommaExpected
  | objectCommaExpected
  | wordExpected
  | valueExpected
  | badEscape
  | badNumber
  | numberTooLarge
  | controlCharacter
  | keyExpected
  | loneSurrogate
  | trailingComma
  | trailingCharacters
  | endOfEscape
  | tooDeep
deriving DecidableEq, Repr

def Cause.message : Cause → String
  | .endOfList => "EOF while parsing a list"
  | .endOfObject => "EOF while parsing an object"
  | .endOfString => "EOF while parsing a string"
  | .endOfValue => "EOF while parsing a value"
  | .colonExpected => "expected `:`"
  | .listCommaExpected => "expected `,` or `]`"
  | .objectCommaExpected => "expected `,` or `\x7d`"
  | .wordExpected => "expected ident"
  | .valueExpected => "expected value"
  | .badEscape => "invalid escape"
  | .badNumber => "invalid number"
  | .numberTooLarge => "number out of range"
  | .controlCharacter => "control character (\\u0000-\\u001F) found while parsing a string"
  | .keyExpected => "key must be a string"
  | .loneSurrogate => "lone leading surrogate in hex escape"
  | .trailingComma => "trailing comma"
  | .trailingCharacters => "trailing characters"
  | .endOfEscape => "unexpected end of hex escape"
  | .tooDeep => "recursion limit exceeded"

/-- A cause and how many bytes were read when it showed. -/
structure Fault where
  cause : Cause
  index : Nat
deriving DecidableEq, Repr

/-- The message of a fault in a text: lines count from 1, and columns count the bytes read
of the line. -/
def Fault.message (fault : Fault) (text : String) : String :=
  let before := text.toByteArray.toList.take fault.index
  let line := before.count 10 + 1
  let column := (before.reverse.takeWhile (· != 10)).length
  fault.cause.message ++ " at line " ++ toString line ++ " column " ++ toString column

/-! ## Input -/

/-- The bytes that remain and the index of the first of them. -/
structure Input where
  index : Nat
  rest : List UInt8

abbrev Step (α : Type) := Except Fault (α × Input)

namespace Input

/-- Fails at the bytes read so far. -/
def failHere {α : Type} (input : Input) (cause : Cause) : Except Fault α :=
  .error ⟨cause, input.index⟩

/-- Fails at the next byte, which counts as read. -/
def failNext {α : Type} (input : Input) (cause : Cause) : Except Fault α :=
  .error ⟨cause, if input.rest.isEmpty then input.index else input.index + 1⟩

def advance (input : Input) (n : Nat) : Input := ⟨input.index + n, input.rest.drop n⟩

end Input

/-- Space, tab, LF and CR. -/
def isSpace (b : UInt8) : Bool := b == 32 || b == 9 || b == 10 || b == 13

def skipSpace (input : Input) : Input := input.advance (input.rest.takeWhile isSpace).length

def asciiBytes (text : String) : List UInt8 := text.toUTF8.toList

def readWord (value : Json) : List UInt8 → Input → Step Json
  | [], input => .ok (value, input)
  | expected :: word, input =>
    match input.rest with
    | [] => input.failHere .endOfValue
    | b :: _ =>
      if b == expected then readWord value word (input.advance 1)
      else (input.advance 1).failHere .wordExpected

/-! ## Numbers -/

def isDigitByte (b : UInt8) : Bool := 48 ≤ b && b ≤ 57

def digitsOf (input : Input) : List UInt8 := input.rest.takeWhile isDigitByte

/-- Adds digits to a whole number below 2 ^ 64. The first that does not fit ends it: the
answer holds how many digits were taken. -/
def addDigits (significand : Nat) : List UInt8 → Nat × Nat
  | [] => (significand, 0)
  | b :: rest =>
    let next := significand * 10 + (b.toNat - 48)
    if next < 0x10000000000000000 then
      let (n, taken) := addDigits next rest
      (n, taken + 1)
    else
      (significand, 0)

/-- The least whole number that is rounded to no double: half a place above the greatest. -/
def doubleLimit : Nat := Nat.pow 2 1024 - Nat.pow 2 970

/-- The value is below the greatest double. -/
def fitsDouble (significand : Nat) (exponent : Int) : Bool :=
  significand == 0 || exponent < 0 ||
    (exponent ≤ 308 && significand * Nat.pow 10 exponent.toNat < doubleLimit)

/-- What a number is so far: its digits as a whole number times a power of ten. -/
structure Magnitude where
  significand : Nat
  exponent : Int

/-- Ends a number, unless it is too large. -/
def closeNumber (size : Magnitude) (input : Input) : Except Fault Input :=
  if fitsDouble size.significand size.exponent then .ok input
  else input.failHere .numberTooLarge

def readExponent (size : Magnitude) (input : Input) : Except Fault Input :=
  let input := input.advance 1
  let (negative, input) := match input.rest with
    | 43 :: _ => (false, input.advance 1)
    | 45 :: _ => (true, input.advance 1)
    | _ => (false, input)
  match input.rest with
  | [] => input.failHere .endOfValue
  | b :: _ =>
    if !isDigitByte b then
      (input.advance 1).failHere .badNumber
    else
      let digits := digitsOf input
      let value : Nat := digits.foldl (fun n b => n * 10 + (b.toNat - 48)) 0
      let input := input.advance digits.length
      if negative then .ok input
      else closeNumber { size with exponent := size.exponent + value } input

/-- Reads the fraction, if a point is next, and the exponent, if one is next. -/
def readFraction (size : Magnitude) (input : Input) : Except Fault Input :=
  let exponentFrom (size : Magnitude) (input : Input) : Except Fault Input :=
    match input.rest with
    | b :: _ => if b == 101 || b == 69 then readExponent size input else closeNumber size input
    | [] => closeNumber size input
  match input.rest with
  | 46 :: _ =>
    let input := input.advance 1
    let digits := digitsOf input
    if digits.isEmpty then
      input.failNext (if input.rest.isEmpty then .endOfValue else .badNumber)
    else
      let (significand, taken) := addDigits size.significand digits
      exponentFrom ⟨significand, size.exponent - taken⟩ (input.advance digits.length)
  | _ => exponentFrom size input

/-- Reads a number after its sign. -/
def readMagnitude (input : Input) : Except Fault Input :=
  match input.rest with
  | [] => input.failHere .endOfValue
  | b :: rest =>
    if b == 48 then
      let input := input.advance 1
      if rest.head?.any isDigitByte then input.failNext .badNumber
      else readFraction ⟨0, 0⟩ input
    else if isDigitByte b then
      let digits := digitsOf input
      let (significand, taken) := addDigits 0 digits
      readFraction ⟨significand, (digits.length - taken : Nat)⟩ (input.advance digits.length)
    else
      (input.advance 1).failHere .badNumber

/-- The text of bytes that are known to be UTF-8. -/
def textOf (bytes : List UInt8) : String := (String.fromUTF8? ⟨bytes.toArray⟩).getD ""

def readNumber (input : Input) : Except Fault (Json × Input) := do
  let after ← readMagnitude (match input.rest with
    | 45 :: _ => input.advance 1
    | _ => input)
  return (.number (textOf (input.rest.take (after.index - input.index))), after)

/-! ## Strings -/

def hexValue (b : UInt8) : Option Nat :=
  if isDigitByte b then some (b.toNat - 48)
  else if 97 ≤ b && b ≤ 102 then some (b.toNat - 87)
  else if 65 ≤ b && b ≤ 70 then some (b.toNat - 55)
  else none

def readHex (input : Input) : Step Nat :=
  match input.rest with
  | a :: b :: c :: d :: _ =>
    let after := input.advance 4
    match hexValue a, hexValue b, hexValue c, hexValue d with
    | some a, some b, some c, some d => .ok (((a * 16 + b) * 16 + c) * 16 + d, after)
    | _, _, _, _ => after.failHere .badEscape
  | _ => (input.advance input.rest.length).failHere .endOfString

/-- Reads one byte that has to follow inside a pair of escapes. -/
def readPairMark (mark : UInt8) (input : Input) : Except Fault Input :=
  match input.rest with
  | [] => input.failHere .endOfString
  | b :: _ =>
    if b == mark then .ok (input.advance 1) else (input.advance 1).failHere .endOfEscape

/-- Reads an escape by code point, after its `u`. Two escapes make one character if they
are a pair of surrogates. -/
def readCodePoint (input : Input) : Except Fault (Nat × Input) := do
  let (high, input) ← readHex input
  if Text.isLowSurrogate high then
    input.failHere .loneSurrogate
  else if !Text.isHighSurrogate high then
    return (high, input)
  else
    let input ← readPairMark 92 input
    let input ← readPairMark 117 input
    let (low, input) ← readHex input
    if Text.isLowSurrogate low then
      return (0x10000 + (high - 0xd800) * 0x400 + (low - 0xdc00), input)
    else
      input.failHere .loneSurrogate

def shortEscape (b : UInt8) : Option UInt8 :=
  if b == 34 || b == 92 || b == 47 then some b
  else if b == 98 then some 8
  else if b == 102 then some 12
  else if b == 110 then some 10
  else if b == 114 then some 13
  else if b == 116 then some 9
  else none

/-- Reads a string after its opening quote. `seen` holds its bytes in reverse. -/
def readStringFrom : Nat → List UInt8 → Input → Step String
  | 0, _, input => input.failHere .endOfString
  | fuel + 1, seen, input =>
    match input.rest with
    | [] => input.failHere .endOfString
    | b :: rest =>
      let input := input.advance 1
      if b == 34 then
        .ok (textOf seen.reverse, input)
      else if b == 92 then
        match rest with
        | [] => input.failHere .endOfString
        | e :: _ =>
          let input := input.advance 1
          if e == 117 then
            match readCodePoint input with
            | .ok (code, input) =>
              readStringFrom fuel
                (asciiBytes (String.singleton (Char.ofNat code)) |>.reverseAux seen) input
            | .error fault => .error fault
          else
            match shortEscape e with
            | some b => readStringFrom fuel (b :: seen) input
            | none => input.failHere .badEscape
      else if b < 32 then
        input.failHere .controlCharacter
      else
        readStringFrom fuel (b :: seen) input

def readString (input : Input) : Step String :=
  readStringFrom (input.rest.length + 1) [] input

/-! ## Documents -/

def depthLimit : Nat := 128

/-- Passes over the comma between two items, if this is not the first. The answer is whether
an item follows. -/
def nextItem (first : Bool) (input : Input) : Step Bool :=
  let input := skipSpace input
  match input.rest with
  | [] => input.failNext .endOfList
  | b :: _ =>
    if b == 93 then .ok (false, input.advance 1)
    else if first then .ok (true, input)
    else if b == 44 then
      let input := skipSpace (input.advance 1)
      match input.rest with
      | [] => input.failNext .endOfValue
      | b :: _ => if b == 93 then input.failNext .trailingComma else .ok (true, input)
    else input.failNext .listCommaExpected

/-- The same between two fields. -/
def nextField (first : Bool) (input : Input) : Step Bool :=
  let input := skipSpace input
  match input.rest with
  | [] => input.failNext .endOfObject
  | b :: _ =>
    if b == 125 then .ok (false, input.advance 1)
    else if first then
      if b == 34 then .ok (true, input) else input.failNext .keyExpected
    else if b == 44 then
      let input := skipSpace (input.advance 1)
      match input.rest with
      | [] => input.failNext .endOfValue
      | b :: _ =>
        if b == 34 then .ok (true, input)
        else if b == 125 then input.failNext .trailingComma
        else input.failNext .keyExpected
    else input.failNext .objectCommaExpected

def skipColon (input : Input) : Except Fault Input :=
  let input := skipSpace input
  match input.rest with
  | [] => input.failNext .endOfObject
  | b :: _ => if b == 58 then .ok (input.advance 1) else input.failNext .colonExpected

mutual

/-- Reads a value; `depth` more levels may open. -/
def readValue : Nat → Nat → Input → Step Json
  | 0, _, input => input.failNext .tooDeep
  | fuel + 1, depth, input =>
    let input := skipSpace input
    match input.rest with
    | [] => input.failNext .endOfValue
    | b :: _ =>
      if b == 110 then readWord .null (asciiBytes "ull") (input.advance 1)
      else if b == 116 then readWord (.bool true) (asciiBytes "rue") (input.advance 1)
      else if b == 102 then readWord (.bool false) (asciiBytes "alse") (input.advance 1)
      else if b == 45 || isDigitByte b then readNumber input
      else if b == 34 then
        match readString (input.advance 1) with
        | .ok (text, input) => .ok (.string text, input)
        | .error fault => .error fault
      else if b == 91 then
        if depth ≤ 1 then input.failNext .tooDeep
        else readItems fuel (depth - 1) true [] (input.advance 1)
      else if b == 123 then
        if depth ≤ 1 then input.failNext .tooDeep
        else readFields fuel (depth - 1) true [] (input.advance 1)
      else input.failNext .valueExpected

/-- Reads the items of an array; `seen` holds those before, in reverse. -/
def readItems : Nat → Nat → Bool → List Json → Input → Step Json
  | 0, _, _, _, input => input.failNext .tooDeep
  | fuel + 1, depth, first, seen, input =>
    match nextItem first input with
    | .error fault => .error fault
    | .ok (false, input) => .ok (.array seen.reverse, input)
    | .ok (true, input) =>
      match readValue fuel depth input with
      | .error fault => .error fault
      | .ok (item, input) => readItems fuel depth false (item :: seen) input

def readFields : Nat → Nat → Bool → List (String × Json) → Input → Step Json
  | 0, _, _, _, input => input.failNext .tooDeep
  | fuel + 1, depth, first, seen, input =>
    match nextField first input with
    | .error fault => .error fault
    | .ok (false, input) => .ok (.object seen, input)
    | .ok (true, input) =>
      match readString (input.advance 1) with
      | .error fault => .error fault
      | .ok (key, input) =>
        match skipColon input with
        | .error fault => .error fault
        | .ok input =>
          match readValue fuel depth input with
          | .error fault => .error fault
          | .ok (value, input) => readFields fuel depth false (setField key value seen) input

end

def ofText (text : String) : Except Fault Json :=
  let bytes := text.toUTF8.toList
  match readValue (2 * bytes.length + 4) depthLimit ⟨0, bytes⟩ with
  | .error fault => .error fault
  | .ok (value, input) =>
    let input := skipSpace input
    if input.rest.isEmpty then .ok value else input.failNext .trailingCharacters

end Untype.Json
