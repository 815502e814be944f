-- Questions about the tokens ahead. They read on from a scanner and leave
-- no trace.
import Untype.Token.Scanner

namespace Untype.Scanner

/-! ## The current token -/

def isIdentifier (s : Scanner) : Bool := s.kind.isIdentifierLike

def isIdentifierOrKeyword (s : Scanner) : Bool := s.kind.isIdentifierOrKeyword

def isOneOf (s : Scanner) (kinds : List TokenKind) : Bool := kinds.contains s.kind

def isBlockEnd (s : Scanner) : Bool := s.kind == .closeBrace || s.kind == .endOfFile

/-- A statement may end here without a semicolon, or with one. -/
def canEndStatement (s : Scanner) : Bool :=
  s.isOneOf [.semicolon, .closeBrace, .endOfFile] || s.afterLineBreak

def startsBinding (s : Scanner) : Bool :=
  s.isIdentifier || s.kind == .openBrace || s.kind == .openBracket

def startsPropertyName (s : Scanner) : Bool :=
  s.isIdentifierOrKeyword ||
    s.isOneOf [.stringLiteral, .numericLiteral, .bigIntLiteral, .privateIdentifier, .openBracket]

def isModuleExportName (s : Scanner) : Bool := s.isIdentifierOrKeyword || s.kind == .stringLiteral

/-! ## The next token -/

def nextIs (kind : TokenKind) (s : Scanner) : Bool := s.scan.kind == kind

def nextIsIdentifierOnLine (s : Scanner) : Bool := s.scan.isIdentifier && !s.scan.afterLineBreak

/-- `let` starts a declaration. -/
def isLetDeclaration (s : Scanner) : Bool := s.scan.startsBinding

/-- A word or a literal on the same line, which goes on after `await` and `yield`. -/
def isOperandOnLine (s : Scanner) : Bool :=
  !s.afterLineBreak &&
    (s.isIdentifierOrKeyword ||
      s.isOneOf [.numericLiteral, .bigIntLiteral, .stringLiteral, .noSubstitutionTemplateLiteral,
        .templateHead])

def startsVariables (s : Scanner) : Bool :=
  match s.kind with
  | .varKeyword | .constKeyword => true
  | .letKeyword => s.isLetDeclaration
  | .usingKeyword => s.nextIsIdentifierOnLine
  | .awaitKeyword => s.scan.kind == .usingKeyword && s.scan.nextIsIdentifierOnLine
  | _ => false

def startsExpression (s : Scanner) : Bool :=
  match s.kind with
  | .thisKeyword | .superKeyword | .nullKeyword | .trueKeyword | .falseKeyword | .numericLiteral
  | .bigIntLiteral | .stringLiteral | .noSubstitutionTemplateLiteral | .templateHead | .openParen
  | .openBracket | .openBrace | .functionKeyword | .classKeyword | .newKeyword | .slash
  | .slashEquals | .plus | .minus | .tilde | .exclamation | .deleteKeyword | .typeOfKeyword
  | .voidKeyword | .plusPlus | .minusMinus | .lessThan | .awaitKeyword | .yieldKeyword
  | .privateIdentifier | .atSign => true
  | .importKeyword => s.scan.isOneOf [.openParen, .lessThan, .dot]
  | _ => s.isIdentifier

/-! ## Modifiers -/

def canFollowModifier (s : Scanner) : Bool :=
  s.isOneOf [.openBrace, .asterisk, .dotDotDot] || s.startsPropertyName

/-- A modifier of a member. It is one only if a member can follow. -/
def isMemberModifier (s : Scanner) : Bool :=
  if !s.kind.isModifier || s.kind == .inKeyword || s.kind == .outKeyword then false
  else if s.kind == .staticKeyword then s.scan.kind != .openBrace && s.scan.canFollowModifier
  else !s.scan.afterLineBreak && s.scan.canFollowModifier

/-- `get` or `set` before the name of a property on the same line. -/
def isAccessorStart (s : Scanner) : Bool :=
  (s.kind == .getKeyword || s.kind == .setKeyword) &&
    !s.scan.afterLineBreak && s.scan.startsPropertyName

def isParameterModifier (s : Scanner) : Bool :=
  s.isOneOf [.publicKeyword, .privateKeyword, .protectedKeyword, .readonlyKeyword,
    .overrideKeyword] &&
    (s.scan.startsBinding || s.scan.kind == .dotDotDot || s.scan.kind == .thisKeyword)

def isTypeParameterModifier (s : Scanner) : Bool :=
  s.isOneOf [.constKeyword, .inKeyword, .outKeyword] && s.scan.isIdentifier

def isDeclarationModifier (s : Scanner) : Bool :=
  match s.kind with
  | .exportKeyword => true
  | .declareKeyword | .abstractKeyword | .asyncKeyword => !s.scan.afterLineBreak
  | .constKeyword => s.nextIs .enumKeyword
  | _ => false

/-! ## Declarations -/

/-- A declaration starts here, maybe after modifiers. Each turn reads one token. -/
def startsDeclarationFrom : Nat → Scanner → Bool
  | 0, _ => false
  | fuel + 1, s =>
    match s.kind with
    | .varKeyword | .constKeyword | .functionKeyword | .classKeyword | .enumKeyword | .atSign
    | .exportKeyword => true
    | .letKeyword => s.isLetDeclaration
    | .usingKeyword | .interfaceKeyword | .typeKeyword => s.nextIsIdentifierOnLine
    | .moduleKeyword | .namespaceKeyword =>
      !s.scan.afterLineBreak && (s.scan.isIdentifier || s.scan.kind == .stringLiteral)
    | .abstractKeyword | .accessorKeyword | .asyncKeyword | .declareKeyword | .privateKeyword
    | .protectedKeyword | .publicKeyword | .readonlyKeyword =>
      !s.scan.afterLineBreak && startsDeclarationFrom fuel s.scan
    | .staticKeyword => startsDeclarationFrom fuel s.scan
    | .globalKeyword => s.scan.isOneOf [.openBrace, .exportKeyword] || s.scan.isIdentifier
    | .importKeyword =>
      s.scan.isOneOf [.stringLiteral, .asterisk, .openBrace] || s.scan.isIdentifier
    | _ => false

/-- More than the number of tokens ahead. -/
def tokensAhead (s : Scanner) : Nat := s.here.rest.length + 2

def startsDeclaration (s : Scanner) : Bool := startsDeclarationFrom s.tokensAhead s

/-- After `export default`: a declaration starts here, and not an expression. -/
def startsDefaultDeclaration (s : Scanner) : Bool :=
  match s.kind with
  | .functionKeyword | .classKeyword | .atSign => true
  | .interfaceKeyword => s.nextIsIdentifierOnLine
  | .abstractKeyword => s.scan.kind == .classKeyword && !s.scan.afterLineBreak
  | .asyncKeyword => s.scan.kind == .functionKeyword && !s.scan.afterLineBreak
  | _ => false

/-- `type` after `import` is a modifier, and not the name of a binding. -/
def isImportTypeModifier (s : Scanner) : Bool :=
  let next := s.scan
  match next.kind with
  | .openBrace | .asterisk => true
  | .fromKeyword => !next.nextIs .stringLiteral
  | .comma => false
  | _ => next.isIdentifier

/-- `type` at the front of a specifier is a modifier, and not a name: `{ type x }`,
`{ type as }` and `{ type as as x }`, but not `{ type }` and `{ type as x }`. -/
def isSpecifierTypeModifier (s : Scanner) : Bool :=
  let first := s.scan
  if !first.isModuleExportName then false
  else if first.kind != .asKeyword then true
  else
    let second := first.scan
    if second.kind == .asKeyword then second.scan.isModuleExportName
    else !second.isModuleExportName

/-! ## Types and members -/

/-- `[key: T]`, and not the name `[key]`. -/
def isIndexSignature (s : Scanner) : Bool :=
  let first := s.scan
  let after (s : Scanner) : Bool :=
    if s.kind == .colon || s.kind == .comma then true
    else if s.kind != .question then false
    else s.scan.isOneOf [.colon, .comma, .closeBracket]
  if first.kind == .dotDotDot || first.kind == .closeBracket then true
  else if first.kind.isModifier then first.scan.isIdentifier || after first.scan
  else if !first.isIdentifier then false
  else after first.scan

def skipParameterModifiers : Nat → Scanner → Scanner
  | 0, s => s
  | fuel + 1, s =>
    if s.kind.isModifier && s.scan.isIdentifier then skipParameterModifiers fuel s.scan else s

/-- Passes over a pattern of brackets and braces, of which `depth` are open. -/
def skipPattern : Nat → Nat → Scanner → Option Scanner
  | 0, _, _ => none
  | fuel + 1, depth, s =>
    match s.kind with
    | .openBracket | .openBrace => skipPattern fuel (depth + 1) s.scan
    | .closeBracket | .closeBrace =>
      if depth ≤ 1 then some s.scan else skipPattern fuel (depth - 1) s.scan
    | .endOfFile => none
    | _ => skipPattern fuel depth s.scan

/-- Passes over modifiers and the name or the pattern of a parameter. -/
def skipParameterStart (s : Scanner) : Option Scanner :=
  let s := skipParameterModifiers s.tokensAhead s
  if s.isIdentifier || s.kind == .thisKeyword then some s.scan
  else if s.kind == .openBracket || s.kind == .openBrace then skipPattern s.tokensAhead 0 s
  else none

/-- The parenthesis opens the parameters of a function type. -/
def opensFunctionType (s : Scanner) : Bool :=
  let first := s.scan
  if first.kind == .closeParen || first.kind == .dotDotDot then true
  else
    match skipParameterStart first with
    | some s =>
      s.isOneOf [.colon, .comma, .question, .equals] ||
        (s.kind == .closeParen && s.nextIs .equalsGreaterThan)
    | none => false

def startsFunctionType (s : Scanner) : Bool :=
  match s.kind with
  | .lessThan | .newKeyword => true
  | .openParen => s.opensFunctionType
  | .abstractKeyword => s.nextIs .newKeyword
  | _ => false

def opensMappedType (s : Scanner) : Bool :=
  let first := s.scan
  if first.kind == .plus || first.kind == .minus then first.nextIs .readonlyKeyword
  else
    let bracket := if first.kind == .readonlyKeyword then first.scan else first
    bracket.kind == .openBracket && bracket.scan.isIdentifier && bracket.scan.nextIs .inKeyword

def isNamedTupleMember (s : Scanner) : Bool :=
  let name := if s.kind == .dotDotDot then s.scan else s
  if !name.isIdentifierOrKeyword then false
  else
    match name.scan.kind with
    | .colon => true
    | .question => name.scan.nextIs .colon
    | _ => false

/-- `asserts x` on one line. -/
def isAssertion (s : Scanner) : Bool :=
  s.kind == .assertsKeyword && !s.scan.afterLineBreak &&
    (s.scan.isIdentifier || s.scan.kind == .thisKeyword)

/-- `x is` on one line. -/
def isPredicate (s : Scanner) : Bool :=
  (s.isIdentifier || s.kind == .thisKeyword) && s.scan.kind == .isKeyword && !s.scan.afterLineBreak

/-! ## Arrow functions -/

/-- What the tokens ahead say. -/
inductive Verdict where
  | no
  | yes
  | unclear
deriving DecidableEq, Repr

/-- The tokens after the parenthesis start the parameters of an arrow function. -/
def parenthesisVerdict (second : Scanner) : Verdict :=
  match second.kind with
  | .closeParen =>
    if second.scan.isOneOf [.equalsGreaterThan, .colon, .openBrace] then .yes else .no
  | .openBracket | .openBrace => .unclear
  | .dotDotDot => .yes
  | _ =>
    if second.kind.isModifier && second.kind != .asyncKeyword && second.scan.isIdentifier then
      if second.nextIs .asKeyword then .no else .yes
    else if !second.isIdentifier && second.kind != .thisKeyword then .no
    else
      let third := second.scan
      match third.kind with
      | .colon => .yes
      | .question =>
        if third.scan.isOneOf [.colon, .comma, .equals, .closeParen] then .yes else .no
      | .comma | .equals | .closeParen => .unclear
      | _ => .no

/-- The tokens after `<` start the type parameters of an arrow function. Where elements may
stand, only `<T,`, `<T =` and `<T extends U` do. -/
def angleVerdict (jsx : Bool) (second : Scanner) : Verdict :=
  if !second.isIdentifier && second.kind != .constKeyword then .no
  else if !jsx then .unclear
  else
    let name := if second.kind == .constKeyword then second.scan else second
    let third := name.scan
    match third.kind with
    | .extendsKeyword =>
      if third.scan.isOneOf [.equals, .greaterThan, .slash] then .no else .yes
    | .comma | .equals => .yes
    | _ => .no

/-- An arrow function with parentheses starts here. -/
def arrowVerdict (jsx : Bool) (s : Scanner) : Verdict :=
  let opening := if s.kind == .asyncKeyword then s.scan else s
  if s.kind == .asyncKeyword && opening.afterLineBreak then .no
  else
    match opening.kind with
    | .openParen => parenthesisVerdict opening.scan
    | .lessThan => angleVerdict jsx opening.scan
    | _ => .no

/-- `async x =>` starts here. -/
def startsAsyncArrow (s : Scanner) : Bool :=
  s.kind == .asyncKeyword && !s.scan.afterLineBreak && s.scan.isIdentifier &&
    s.scan.nextIs .equalsGreaterThan

end Untype.Scanner
