-- What is worth telling about a text that is converted all the same.

namespace Untype

/-- Something worth telling. The first six are faults of single tokens, the last three are
pieces that stay as they are. -/
inductive Problem where
  | unterminatedString
  | commentEndExpected
  | hexDigitExpected
  | invalidCharacter
  | unterminatedTemplate
  | unterminatedRegularExpression
  | namespaceKept (name : String)
  | enumKept (name : String)
  | typeSyntaxKept (excerpt : String)
deriving DecidableEq, Repr

inductive Severity where
  | warning
  | error
deriving DecidableEq, Repr

namespace Problem

def code : Problem → Nat
  | unterminatedString => 1002
  | commentEndExpected => 1010
  | hexDigitExpected => 1125
  | invalidCharacter => 1127
  | unterminatedTemplate => 1160
  | unterminatedRegularExpression => 1161
  | namespaceKept _ => 9001
  | enumKept _ => 9002
  | typeSyntaxKept _ => 9003

def severity : Problem → Severity
  | namespaceKept _ => .warning
  | enumKept _ => .warning
  | typeSyntaxKept _ => .warning
  | _ => .error

def message : Problem → String
  | unterminatedString => "Unterminated string literal."
  | commentEndExpected => "'*/' expected."
  | hexDigitExpected => "Hexadecimal digit expected."
  | invalidCharacter => "Invalid character."
  | unterminatedTemplate => "Unterminated template literal."
  | unterminatedRegularExpression => "Unterminated regular expression literal."
  | namespaceKept name =>
    "Namespace '" ++ name ++
      "' contains runtime members; it was left in place with its types stripped."
  | enumKept name =>
    "Enum '" ++ name ++
      "' has a member whose value depends on a computed member; the enum was left in place."
  | typeSyntaxKept excerpt =>
    "Type syntax '" ++ excerpt ++ "' was not recognized here and was left in place."

end Problem

/-- A problem and the bytes that it is about. -/
structure Finding where
  start : Nat
  length : Nat
  problem : Problem
deriving DecidableEq, Repr

structure Diagnostic extends Finding where
  file : String
deriving DecidableEq, Repr

def Finding.inFile (file : String) (finding : Finding) : Diagnostic := { finding with file }

end Untype
