-- Whole files.
import Untype.Files.Path
import Untype.Grammar.Statements

namespace Untype

/-- Whether `<` may open an element or a type in front of an expression. -/
inductive Variant where
  | standard
  | jsx
deriving DecidableEq, Repr

/-- The extension of a file decides, in any case. -/
def Variant.ofFileName (file : String) : Variant :=
  match Path.extension? file with
  | some extension =>
    let extension := Text.lowerCase extension
    if extension == "tsx" || extension == "jsx" then .jsx else .standard
  | none => .standard

namespace Grammar

open Untype.Grammar.Parser

/-- The parsers of the productions. Each step through a production takes one unit of fuel. -/
def rules : Nat → Rules
  | 0, _ => stall
  | fuel + 1, production =>
    match production with
    | .statement => nested (statement (rules fuel))
    | .expression => expression (rules fuel)
    | .assignment => nested (assignment (rules fuel))
    | .binary strength => binary (rules fuel) strength
    | .unaryOperand => nested (simpleUnary (rules fuel))
    | .leftHandSide => leftHandSide (rules fuel)
    | .primary => primary (rules fuel)
    | .bindingName => bindingName (rules fuel)
    | .type => nested (anyType (rules fuel))
    | .typeOperator => operatorType (rules fuel)
    | .jsxElement inExpression => nested (jsxElement (rules fuel) inExpression)

def sourceFile (r : Rules) : Parser Node := do
  moveBy (·.scan)
  let statements ← manyUntil (·.kind == .endOfFile) (r .statement)
  let stop ← eat
  return .group .sourceFile (statements ++ [stop])

/-- More than the number of tokens of a text. -/
def loopBudget (text : String) : Nat := text.length + 2

/-- More than the number of productions that can be open at once. -/
def recursionBudget (text : String) : Nat := 64 * loopBudget text

def Context.ofText (variant : Variant) (text : String) : Context :=
  { jsx := variant == .jsx, budget := loopBudget text }

end Grammar

structure SyntaxTree where
  file : String
  source : String
  variant : Variant
  root : Node
  /-- Faults of single tokens. -/
  findings : List Finding

structure ParseError where
  pos : Nat
  location : Text.Location
  message : String
deriving DecidableEq, Repr

/-- The error with its place in front. -/
def ParseError.text (error : ParseError) : String :=
  toString error.location.line ++ ":" ++ toString error.location.column ++ ": " ++ error.message

def ParseError.ofText (text : String) (pos : Nat) (message : String) : ParseError :=
  ⟨pos, (Text.LineMap.ofText text).location text pos, message⟩

namespace SyntaxTree

/-- Reads a text as a file of this variant, from this context on. -/
def parseFrom (context : Grammar.Context) (variant : Variant) (file text : String) :
    Except ParseError SyntaxTree :=
  let parser := Grammar.sourceFile (Grammar.rules (Grammar.recursionBudget text))
  match parser context ⟨Scanner.ofText text, []⟩ with
  | .done root state => .ok ⟨file, text, variant, root, state.scanner.findings⟩
  | .failed failure _ => .error (.ofText text failure.pos failure.cause.message)
  | .stalled => .error (.ofText text 0 "The text could not be read to its end.")

def parseAs (variant : Variant) (file text : String) : Except ParseError SyntaxTree :=
  parseFrom (Grammar.Context.ofText variant text) variant file text

def parse (file text : String) : Except ParseError SyntaxTree :=
  parseAs (Variant.ofFileName file) file text

end SyntaxTree

end Untype
