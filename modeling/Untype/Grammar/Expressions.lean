-- Expressions.
import Untype.Grammar.Jsx
import Untype.Grammar.Types

namespace Untype.Grammar

open Untype.Grammar.Parser

/-- How tight a binary operator binds, 0 for what is none. -/
def bindingStrength : TokenKind → Nat
  | .questionQuestion => 1
  | .barBar => 2
  | .ampersandAmpersand => 3
  | .bar => 4
  | .caret => 5
  | .ampersand => 6
  | .equalsEquals | .exclamationEquals | .equalsEqualsEquals | .exclamationEqualsEquals => 7
  | .lessThan | .greaterThan | .lessThanEquals | .greaterThanEquals | .instanceOfKeyword
  | .inKeyword | .asKeyword | .satisfiesKeyword => 8
  | .lessThanLessThan | .greaterThanGreaterThan | .greaterThanGreaterThanGreaterThan => 9
  | .plus | .minus => 10
  | .asterisk | .slash | .percent => 11
  | .asteriskAsterisk => 12
  | _ => 0

/-! ## Arguments and templates -/

/-- An expression in brackets of its own. -/
def enclosedAssignment (r : Rules) : Parser Node :=
  within (fun c => { c with disallowIn := false, conditionalTrue := false, decorator := false })
    (r .assignment)

/-- `e` or `...e`. -/
def argument (r : Rules) : Parser Node := do
  if ← tokenIs .dotDotDot then
    let dots ← eat
    let value ← enclosedAssignment r
    return .group .spreadElement [dots, value]
  else
    enclosedAssignment r

/-- `(a, ...b)`. -/
def argumentList (r : Rules) : Parser (List Node) := do
  let opening ← expect .openParen
  let arguments ← commaList .closeParen (argument r)
  let closing ← expect .closeParen
  return opening :: arguments ++ [closing]

def template (r : Rules) : Parser Node := do
  if ← tokenIs .noSubstitutionTemplateLiteral then
    eat
  else
    let head ← expect .templateHead
    let spans ← templateSpans .templateSpan (r .expression)
    return .group .templateExpression (head :: spans)

/-- What follows type arguments does not go on with a comparison. -/
def canFollowTypeArguments (s : Scanner) : Bool :=
  match s.kind with
  | .openParen | .noSubstitutionTemplateLiteral | .templateHead => true
  | .lessThan | .greaterThan | .plus | .minus => false
  | kind => s.afterLineBreak || 0 < bindingStrength kind || !s.startsExpression

/-- `<T, U>` in an expression. -/
def expressionTypeArguments (r : Rules) : Parser Node := do
  let arguments ← typeArguments r
  if ← ask canFollowTypeArguments then return arguments else fail .typeArgumentsMisplaced

/-! ## Primary expressions -/

def parenthesized (r : Rules) : Parser Node := do
  let opening ← eat
  let value ← within (fun c => { c with disallowIn := false, decorator := false }) (r .expression)
  let closing ← expect .closeParen
  return .group .parenthesizedExpression [opening, value, closing]

def arrayLiteral (r : Rules) : Parser Node := do
  let opening ← eat
  let elements ← sparseList .closeBracket (argument r)
  let closing ← expect .closeBracket
  return .group .arrayLiteralExpression (opening :: elements ++ [closing])

/-- A property or a method of an object, after `...` and accessors are ruled out. -/
def objectProperty (r : Rules) : Parser Node := do
  let async ← eatIf fun s => s.kind == .asyncKeyword && !s.scan.afterLineBreak &&
    (s.scan.startsPropertyName || s.scan.kind == .asterisk)
  let star ← optional .asterisk
  let mayBeShort ← ask (·.isIdentifier)
  let name ← propertyName r
  let question ← optional .question
  let front := async ++ star ++ [name] ++ question
  if !async.isEmpty || !star.isEmpty || (← ask startsSignature) then
    let rest ← signatureAndBody r (!async.isEmpty) (!star.isEmpty) false
    return .group .methodDeclaration (front ++ rest)
  else if mayBeShort && (← ask (·.isOneOf [.comma, .closeBrace, .equals])) then
    if ← tokenIs .equals then
      let equals ← eat
      let value ← enclosedAssignment r
      return .group .shorthandPropertyAssignment (front ++ [equals, value])
    else
      return .group .shorthandPropertyAssignment front
  else
    let colon ← expect .colon
    let value ← enclosedAssignment r
    return .group .propertyAssignment (front ++ [colon, value])

def objectElement (r : Rules) : Parser Node := do
  if ← tokenIs .dotDotDot then
    let dots ← eat
    let value ← enclosedAssignment r
    return .group .spreadAssignment [dots, value]
  else if ← ask (·.isAccessorStart) then
    let kind := if ← tokenIs .getKeyword then NodeKind.getAccessor else .setAccessor
    let word ← eat
    let name ← propertyName r
    let rest ← signatureAndBody r false false false
    return .group kind (word :: name :: rest)
  else
    objectProperty r

def objectLiteral (r : Rules) : Parser Node := do
  let opening ← eat
  let elements ← commaList .closeBrace (nested (objectElement r))
  let closing ← expect .closeBrace
  return .group .objectLiteralExpression (opening :: elements ++ [closing])

def functionExpression (r : Rules) : Parser Node := do
  let async ← optional .asyncKeyword
  let word ← expect .functionKeyword
  let star ← optional .asterisk
  let name ← parseIf (·.isIdentifier) identifier
  let rest ← signatureAndBody r (!async.isEmpty) (!star.isEmpty) false
  return .group .functionExpression (async ++ word :: star ++ name ++ rest)

def classExpression (r : Rules) : Parser Node := do
  let decorators ← decorators r
  classLike r .classExpression decorators

/-- `new.target` and `import.meta`. -/
def metaProperty : Parser Node := do
  let word ← eat
  let dot ← expect .dot
  let name ← identifierName
  return .group .metaProperty [word, dot, name]

/-! ## Members and calls -/

/-- `[e]` after what stands in front of it. -/
def elementAccess (r : Rules) (front : List Node) : Parser Node := do
  let opening ← expect .openBracket
  let key ← within
    (fun c => { c with disallowIn := false, conditionalTrue := false, decorator := false })
    (r .expression)
  let closing ← expect .closeBracket
  return .group .elementAccessExpression (front ++ [opening, key, closing])

/-- `?.` before a member, and not before a call. -/
def isOptionalMember (s : Scanner) : Bool :=
  s.kind == .questionDot &&
    (s.scan.isIdentifierOrKeyword || s.scan.isOneOf [.privateIdentifier, .openBracket])

/-- One more member, mark or template behind an expression, if there is one. -/
def memberStep (r : Rules) (optionalChain : Bool) (owner : Node) : Parser (Turn Node Node) := do
  let s ← ask id
  if s.kind == .dot || (optionalChain && isOptionalMember s) then
    let dot ← eat
    if ← tokenIs .openBracket then
      return .again (← elementAccess r [owner, dot])
    else
      let name ← identifierName
      return .again (.group .propertyAccessExpression [owner, dot, name])
  else
    match s.kind with
    | .exclamation =>
      if s.afterLineBreak then
        return .finish owner
      else
        let mark ← eat
        return .again (.group .nonNullExpression [owner, mark])
    | .openBracket =>
      if (← context).decorator then return .finish owner
      else return .again (← elementAccess r [owner])
    | .noSubstitutionTemplateLiteral | .templateHead =>
      let text ← template r
      return .again (.group .taggedTemplateExpression [owner, text])
    | .lessThan =>
      match ← attempt (expressionTypeArguments r) with
      | some arguments => return .again (.group .instantiationExpression [owner, arguments])
      | none => return .finish owner
    | _ => return .finish owner

def members (r : Rules) (optionalChain : Bool) (first : Node) : Parser Node :=
  loopFrom first (memberStep r optionalChain)

def calls (r : Rules) (first : Node) : Parser Node :=
  loopFrom first fun callee => do
    let callee ← members r true callee
    if ← tokenIs .openParen then
      let front := if callee.isKind .instantiationExpression then callee.children else [callee]
      let arguments ← argumentList r
      return .again (.group .callExpression (front ++ arguments))
    else if ← tokenIs .questionDot then
      let dot ← eat
      let types ← parseIf (·.kind == .lessThan) (expressionTypeArguments r)
      if ← tokenIs .openParen then
        let arguments ← argumentList r
        return .again (.group .callExpression (callee :: dot :: types ++ arguments))
      else
        failExpected "("
    else
      return .finish callee

/-- `new C<T>(a)`, `new C` and `new.target`. -/
def newExpression (r : Rules) : Parser Node := do
  if ← ask (·.nextIs .dot) then
    metaProperty
  else
    let word ← eat
    let target ← r .primary
    let target ← members r false target
    let front := if target.isKind .instantiationExpression then target.children else [target]
    let arguments ← do
      if ← tokenIs .openParen then argumentList r else pure []
    return .group .newExpression (word :: front ++ arguments)

/-- An expression that no operator takes part in. -/
def primary (r : Rules) : Parser Node := do
  match ← kind with
  | .numericLiteral | .bigIntLiteral | .stringLiteral | .noSubstitutionTemplateLiteral
  | .thisKeyword | .superKeyword | .nullKeyword | .trueKeyword | .falseKeyword
  | .privateIdentifier => eat
  | .templateHead => template r
  | .openParen => parenthesized r
  | .openBracket => arrayLiteral r
  | .openBrace => objectLiteral r
  | .functionKeyword => functionExpression r
  | .classKeyword | .atSign => classExpression r
  | .newKeyword => newExpression r
  | .slash | .slashEquals =>
    moveBy (·.rescanSlash)
    eat
  | .asyncKeyword =>
    if ← ask fun s => s.scan.kind == .functionKeyword && !s.scan.afterLineBreak then
      functionExpression r
    else
      identifier
  | _ => if ← ask (·.isIdentifier) then identifier else fail .expressionExpected

/-- What may stand on the left of an assignment, with its members and calls. -/
def leftHandSide (r : Rules) : Parser Node := do
  let first ← do
    match ← kind with
    | .importKeyword =>
      if ← ask fun s => startsSignature s.scan then eat
      else if ← ask (·.nextIs .dot) then metaProperty
      else members r true (← r .primary)
    | .superKeyword => eat
    | _ => members r true (← r .primary)
  calls r first

/-! ## Unary operators -/

/-- `x++`, `++x` and an element. -/
def update (r : Rules) : Parser Node := do
  if ← ask (·.isOneOf [.plusPlus, .minusMinus]) then
    let sign ← eat
    let operand ← r .leftHandSide
    return .group .prefixUnaryExpression [sign, operand]
  else if (← context).jsx && (← tokenIs .lessThan) then
    r (.jsxElement true)
  else
    let operand ← r .leftHandSide
    if ← ask fun s => s.isOneOf [.plusPlus, .minusMinus] && !s.afterLineBreak then
      let sign ← eat
      return .group .postfixUnaryExpression [operand, sign]
    else
      return operand

def isAwait (async : Bool) (s : Scanner) : Bool :=
  s.kind == .awaitKeyword && (async || s.scan.isOperandOnLine)

/-- The type in `e as T` and `<T>e`, where `const` may stand too. -/
def assertedType (r : Rules) : Parser Node := do
  if ← tokenIs .constKeyword then single .keywordType else r .type

/-- `<T>e`. -/
def typeAssertion (r : Rules) : Parser Node := do
  let opening ← eat
  let type ← assertedType r
  let closing ← expect .greaterThan
  let operand ← r .unaryOperand
  return .group .typeAssertionExpression [opening, type, closing, operand]

def unaryKind? (async : Bool) (s : Scanner) : Option NodeKind :=
  match s.kind with
  | .plus | .minus | .tilde | .exclamation => some .prefixUnaryExpression
  | .deleteKeyword => some .deleteExpression
  | .typeOfKeyword => some .typeOfExpression
  | .voidKeyword => some .voidExpression
  | .awaitKeyword => if isAwait async s then some .awaitExpression else none
  | _ => none

/-- An operator and its operand, `<T>e`, or an expression without them. -/
def simpleUnary (r : Rules) : Parser Node := do
  match ← ask (unaryKind? (← context).async) with
  | some kind =>
    let operator ← eat
    let operand ← r .unaryOperand
    return .group kind [operator, operand]
  | none => if ← tokenIs .lessThan then typeAssertion r else update r

/-- No unary operator other than `++` and `--` is in front. -/
def startsUpdate (jsx async : Bool) (s : Scanner) : Bool :=
  match s.kind with
  | .plus | .minus | .tilde | .exclamation | .deleteKeyword | .typeOfKeyword | .voidKeyword => false
  | .awaitKeyword => !isAwait async s
  | .lessThan => jsx
  | _ => true

def unary (r : Rules) : Parser Node :=
  nested do
    let c ← context
    if ← ask (startsUpdate c.jsx c.async) then
      update r
    else
      let operand ← simpleUnary r
      if ← tokenIs .asteriskAsterisk then fail .unaryBeforePower else return operand

/-! ## Binary operators -/

/-- The operator goes on with an expression of this strength. Only `**` groups to the
right. -/
def continues (strength : Nat) (operator : TokenKind) : Bool :=
  let next := bindingStrength operator
  if operator == .asteriskAsterisk then strength ≤ next else strength < next

/-- One more operator behind an operand, if it binds tight enough. -/
def binaryStep (r : Rules) (strength : Nat) (left : Node) : Parser (Turn Node Node) := do
  moveBy (·.rescanGreater)
  let s ← ask id
  let operator := s.kind
  if bindingStrength operator == 0 || !continues strength operator then
    return .finish left
  else if operator == .inKeyword && (← context).disallowIn then
    return .finish left
  else if operator == .asKeyword || operator == .satisfiesKeyword then
    if s.afterLineBreak then
      return .finish left
    else
      let word ← eat
      if operator == .asKeyword then
        let type ← assertedType r
        return .again (.group .asExpression [left, word, type])
      else
        let type ← r .type
        return .again (.group .satisfiesExpression [left, word, type])
  else
    let sign ← eat
    let right ← r (.binary (bindingStrength operator))
    return .again (.group .binaryExpression [left, sign, right])

/-- Operands and operators that bind tighter than `strength`. -/
def binary (r : Rules) (strength : Nat) : Parser Node := do
  let first ← unary r
  loopFrom first (binaryStep r strength)

/-! ## Arrow functions -/

/-- `=> body` after the head of an arrow function. -/
def arrowRest (r : Rules) (async : Bool) (front : List Node) : Parser Node := do
  let arrow ← expect .equalsGreaterThan
  let body ← do
    if ← tokenIs .openBrace then functionBody r async false
    else within (fun c => { c with async, generator := false }) (r .assignment)
  return .group .arrowFunction (front ++ [arrow, body])

/-- `async <T>(a, b): R => body`. Where it is not certain that an arrow function stands here,
what may mean something else makes it fail. -/
def parenthesizedArrow (r : Rules) (certain : Bool) : Parser Node := do
  let mayReturnType := certain || !(← context).conditionalTrue
  let word ← optional .asyncKeyword
  let async := !word.isEmpty
  let types ← optionalTypeParameters r
  let parameters ← within (fun c => { c with async, generator := false }) (parameterList r)
  let result ← parseIf (·.kind == .colon) (returnMark r)
  if !certain && !(← ask (·.isOneOf [.equalsGreaterThan, .openBrace])) then
    failExpected "=>"
  else
    let arrow ← arrowRest r async (word ++ types ++ [parameters] ++ result)
    if !mayReturnType && !result.isEmpty && !(← tokenIs .colon) then failExpected ":"
    else return arrow

/-- An arrow function with parentheses, if one starts here. -/
def parenthesizedArrow? (r : Rules) : Parser (Option Node) := do
  match ← ask (Scanner.arrowVerdict (← context).jsx) with
  | .no => return none
  | .yes => return some (← parenthesizedArrow r true)
  | .unclear => attemptArrow (← ask (·.start.offset)) (parenthesizedArrow r false)

/-- `async x => body`. -/
def asyncArrow (r : Rules) : Parser Node := do
  let word ← eat
  let name ← identifier
  arrowRest r true [word, .group .parameter [name]]

/-! ## Assignments -/

def isYield (generator : Bool) (s : Scanner) : Bool :=
  s.kind == .yieldKeyword && (generator || s.scan.isOperandOnLine)

/-- `yield e` and `yield* e`. -/
def yieldExpression (r : Rules) : Parser Node := do
  let word ← eat
  if ← ask fun s => !s.afterLineBreak && (s.kind == .asterisk || s.startsExpression) then
    let star ← optional .asterisk
    let value ← r .assignment
    return .group .yieldExpression (word :: star ++ [value])
  else
    return .group .yieldExpression [word]

def isAssignable (node : Node) : Bool :=
  match node.label with
  | .token kind => kind.isIdentifierLike || kind == .thisKeyword
  | .branch kind =>
    match kind with
    | .propertyAccessExpression | .elementAccessExpression | .callExpression
    | .parenthesizedExpression | .arrayLiteralExpression | .objectLiteralExpression
    | .nonNullExpression | .taggedTemplateExpression | .metaProperty => true
    | _ => false
  | .inserted => false

/-- `? a : b` after a condition, if it is there. -/
def conditional (r : Rules) (condition : Node) : Parser Node := do
  if ← tokenIs .question then
    let question ← eat
    let yes ← within (fun c => { c with conditionalTrue := true, disallowIn := false })
      (r .assignment)
    let colon ← expect .colon
    let no ← r .assignment
    return .group .conditionalExpression [condition, question, yes, colon, no]
  else
    return condition

/-- What follows an operand: `=>`, an assignment or a condition. -/
def assignmentRest (r : Rules) (left : Node) : Parser Node := do
  let kind ← kind
  if left.isToken .identifier && kind == .equalsGreaterThan then
    arrowRest r false [.group .parameter [left]]
  else if kind.isAssignmentOperator && isAssignable left then
    let sign ← eat
    let right ← r .assignment
    return .group .binaryExpression [left, sign, right]
  else
    conditional r left

/-- An expression without commas. -/
def assignment (r : Rules) : Parser Node := do
  if ← ask (isYield (← context).generator) then
    yieldExpression r
  else
    match ← parenthesizedArrow? r with
    | some arrow => return arrow
    | none =>
      if ← ask (·.startsAsyncArrow) then
        asyncArrow r
      else
        let left ← r (.binary 0)
        assignmentRest r left

/-- An expression with commas. -/
def expression (r : Rules) : Parser Node :=
  within (fun c => { c with conditionalTrue := false, decorator := false }) do
    let first ← r .assignment
    loopFrom first fun left => do
      if ← tokenIs .comma then
        let comma ← eat
        let right ← r .assignment
        return .again (.group .binaryExpression [left, comma, right])
      else
        return .finish left

end Untype.Grammar
