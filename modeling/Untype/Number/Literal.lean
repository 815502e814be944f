-- The value of a number as it is written.
import Untype.Number.Basic
import Untype.Text.Chars

namespace Untype.Number

open Untype.Text (isDigit isOctalDigit asciiLower)

/-! ## Whole numbers -/

def digitValue (c : Char) : Nat :=
  if isDigit c then c.toNat - 48 else (asciiLower c).toNat - 87

def isDigitIn (base : Nat) (c : Char) : Bool :=
  (isDigit c || ('a' ≤ asciiLower c && asciiLower c ≤ 'z')) && digitValue c < base

/-- The value of digits, the first one the greatest. -/
def ofDigits (base : Nat) (cs : List Char) : Nat :=
  cs.foldl (fun n c => n * base + digitValue c) 0

/-- A whole number below `limit`: one plus sign at most, then digits. -/
def readWhole (base limit : Nat) (cs : List Char) : Option Nat :=
  let digits := match cs with
    | '+' :: rest => rest
    | _ => cs
  if digits.isEmpty || !digits.all (isDigitIn base) then none
  else if ofDigits base digits < limit then some (ofDigits base digits)
  else none

/-! ## Decimals -/

/-- The double nearest to `digits · 10 ^ exponent`. Exponents far outside the range of
doubles are settled by the size alone. -/
def ofDecimal (digits : Nat) (exponent : Int) : Number :=
  if digits = 0 then zero false
  else
    let size : Int := (digits.log2 : Int) / 4 + exponent
    if 400 < size then infinity false
    else if (digits.log2 : Int) + exponent < -400 then zero false
    else round false ((digits : Rat) * (10 : Rat) ^ exponent)

/-- The exponent of a decimal: nothing, or `e`, a sign and digits to the end. -/
def readExponent : List Char → Option Int
  | [] => some 0
  | e :: rest =>
    if e == 'e' || e == 'E' then
      let (negative, digits) := match rest with
        | '-' :: digits => (true, digits)
        | '+' :: digits => (false, digits)
        | digits => (false, digits)
      if digits.isEmpty || !digits.all isDigit then none
      else
        let size : Int := ofDigits 10 digits
        some (if negative then -size else size)
    else
      none

/-- A decimal without a sign: digits with a point among them, before or after them, and an
exponent. -/
def readUnsigned (cs : List Char) : Option Number :=
  let whole := cs.takeWhile isDigit
  let (fraction, rest) := match cs.dropWhile isDigit with
    | '.' :: rest => (rest.takeWhile isDigit, rest.dropWhile isDigit)
    | rest => ([], rest)
  if whole.isEmpty && fraction.isEmpty then none
  else
    match readExponent rest with
    | none => none
    | some exponent =>
      some (ofDecimal (ofDigits 10 (whole ++ fraction)) (exponent - fraction.length))

/-- The words for what is not finite, in any case. -/
def readWord (cs : List Char) : Option Number :=
  let word := String.ofList (cs.map asciiLower)
  if word == "inf" || word == "infinity" then some (infinity false)
  else if word == "nan" then some (nan false)
  else none

def readDecimal (cs : List Char) : Option Number :=
  let (negative, size) := match cs with
    | '-' :: rest => (true, rest)
    | '+' :: rest => (false, rest)
    | rest => (false, rest)
  match (readUnsigned size).orElse fun _ => readWord size with
  | some a => some (if negative then a.neg else a)
  | none => none

/-! ## Literals -/

/-- The base that the letter after a leading zero names. -/
def baseOf (c : Char) : Option Nat :=
  if c == 'x' || c == 'X' then some 16
  else if c == 'o' || c == 'O' then some 8
  else if c == 'b' || c == 'B' then some 2
  else none

def wholeLimit : Nat := Nat.pow 2 128

/-- The value of a literal without underscores: with a base, octal by its leading zero, or
decimal. -/
def ofLiteralChars (cs : List Char) : Option Number :=
  match cs with
  | '0' :: c :: d :: rest =>
    match baseOf c with
    | some base => (readWhole base wholeLimit (d :: rest)).map fun n => ofInt n
    | none =>
      if cs.all isOctalDigit then (readWhole 8 wholeLimit (c :: d :: rest)).map fun n => ofInt n
      else readDecimal cs
  | ['0', c] =>
    if isOctalDigit c then (readWhole 8 wholeLimit [c]).map fun n => ofInt n
    else readDecimal cs
  | _ => readDecimal cs

/-- The value of a literal. Underscores count for nothing. -/
def ofLiteral? (text : String) : Option Number :=
  ofLiteralChars (text.toList.filter (· != '_'))

end Untype.Number
