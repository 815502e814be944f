-- Classes of characters: what ends a line, what is blank, what may stand
-- in a name.
import Untype.Text.AlphabeticRuns
import Untype.Text.NumberRuns

namespace Untype.Text

/-! ## Lines and blanks -/

/-- The four characters that end a line: LF, CR, U+2028 and U+2029. -/
def isLineBreak (c : Char) : Bool :=
  c == '\n' || c == '\r' || c == '\u2028' || c == '\u2029'

/-- Blank characters that do not end a line. -/
def isBlank (c : Char) : Bool :=
  c == ' ' || c == '\t' || c == '\x0b' || c == '\x0c' || c == '\u0085' || c == '\u00a0' ||
  c == '\u1680' || (0x2000 ≤ c.toNat && c.toNat ≤ 0x200b) || c == '\u202f' || c == '\u205f' ||
  c == '\u3000' || c == '\ufeff'

def isBlankOrLineBreak (c : Char) : Bool := isBlank c || isLineBreak c

/-- The Unicode property White_Space. It differs from `isBlankOrLineBreak`: U+200B and
U+FEFF are blanks of the grammar and not in it. -/
def isWhiteSpace (c : Char) : Bool :=
  (0x09 ≤ c.toNat && c.toNat ≤ 0x0d) || c == ' ' || c == '\u0085' || c == '\u00a0' ||
  c == '\u1680' || (0x2000 ≤ c.toNat && c.toNat ≤ 0x200a) || c == '\u2028' || c == '\u2029' ||
  c == '\u202f' || c == '\u205f' || c == '\u3000'

/-! ## Digits -/

def isDigit (c : Char) : Bool := '0' ≤ c && c ≤ '9'

def isOctalDigit (c : Char) : Bool := '0' ≤ c && c ≤ '7'

def isBinaryDigit (c : Char) : Bool := c == '0' || c == '1'

def isHexDigit (c : Char) : Bool :=
  isDigit c || ('a' ≤ c && c ≤ 'f') || ('A' ≤ c && c ≤ 'F')

/-! ## Letters and names -/

def isAsciiLetter (c : Char) : Bool := ('a' ≤ c && c ≤ 'z') || ('A' ≤ c && c ≤ 'Z')

/-- Whether `n` falls into a run that is inside, if the first one is so or not. -/
def inRuns (inside : Bool) : List Nat → Nat → Bool
  | [], _ => false
  | run :: rest, n => if n < run then inside else inRuns (!inside) rest (n - run)

/-- A letter: ASCII, or with the Unicode property Alphabetic. -/
def isLetter (c : Char) : Bool :=
  if c.toNat < 0x80 then isAsciiLetter c else inRuns false alphabeticRuns (c.toNat - 0x80)

def isLetterOrNumber (c : Char) : Bool :=
  isLetter c || (if c.toNat < 0x80 then isDigit c else inRuns false numberRuns (c.toNat - 0x80))

def isNameStart (c : Char) : Bool := c == '$' || c == '_' || isLetter c

/-- A later character of a name. The zero width joiners may stand there. -/
def isNamePart (c : Char) : Bool :=
  c == '$' || c == '_' || c == '\u200c' || c == '\u200d' || isLetterOrNumber c

def isName (text : String) : Bool :=
  match text.toList with
  | [] => false
  | c :: rest => isNameStart c && rest.all isNamePart

/-! ## Letter case -/

/-- ASCII capitals become small; all else stays. -/
def asciiLower (c : Char) : Char :=
  if 'A' ≤ c && c ≤ 'Z' then Char.ofNat (c.toNat + 32) else c

def lowerCase (text : String) : String := String.ofList (text.toList.map asciiLower)

/-! ## Trimming -/

def trimStart (text : String) : String := String.ofList (text.toList.dropWhile isWhiteSpace)

def trimEnd (text : String) : String :=
  String.ofList (text.toList.reverse.dropWhile isWhiteSpace).reverse

end Untype.Text
